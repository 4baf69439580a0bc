/-
The primary of a view (`rsm.cc`).

`set_primary` works from the node's own previous primary and from the last two views.
Views grow at the end, so a node that commits every view in turn always has the oldest
member of its view as primary. A node that skips views keeps its old primary when that
node is in the new view, also if it has left and come back in between and is no longer
the oldest. A node that restarts takes the first name on its command line for its
primary, and may get the log from that node without that node being the primary.

A run is over a history of agreed views. Values that reach a node (`learn`, a log that
is restored) are known there; upcalls and the recovery thread commit known views.
-/
import Yfs.Rsm
import Mathlib.Data.List.GetD

set_option autoImplicit false

namespace Yfs.RsmPrimary

open Text Yfs.PaxosProposer Yfs.Views Yfs.Rsm

/-! ## Histories of views -/

/-- View `i` of a history; there is no view 0. -/
def viewOf (hist : List (List Str)) : ℕ → List Str
  | 0 => []
  | i + 1 => hist.getD i []

/-- Each view is made from the one before, the first from nothing. -/
def History (hist : List (List Str)) : Prop := ([] :: hist).IsChain NextView

theorem History.next {hist : List (List Str)} (h : History hist) {i : ℕ}
    (hi : viewOf hist (i + 1) ≠ []) : NextView (viewOf hist i) (viewOf hist (i + 1)) := by
  have hlt : i < hist.length := by
    by_contra hge
    exact hi (List.getD_eq_default _ _ (by omega))
  have hchain := List.isChain_iff_getElem.mp h i (by simpa using hlt)
  have hcur : viewOf hist (i + 1) = hist[i] := List.getD_eq_getElem _ _ hlt
  rw [hcur]
  cases i with
  | zero => exact hchain
  | succ j =>
    have hprev : viewOf hist (j + 1) = hist[j] := List.getD_eq_getElem _ _ (by omega)
    rw [hprev]
    exact hchain

theorem History.nodup {hist : List (List Str)} (h : History hist) (i : ℕ) :
    (viewOf hist i).Nodup := by
  induction i with
  | zero => exact List.nodup_nil
  | succ i ih =>
    by_cases hi : viewOf hist (i + 1) = []
    · rw [hi]
      exact List.nodup_nil
    · exact (h.next hi).nodup ih

/-- The oldest member stays the oldest as long as it stays. -/
theorem head_of_next {v w : List Str} {q : Str} (hv : v.Nodup) (h : NextView v w)
    (hq : v.head? = some q) (hmem : q ∈ w) : w.head? = some q := by
  obtain ⟨rest, rfl⟩ := List.head?_eq_some_iff.mp hq
  cases h with
  | added m hm => rfl
  | removed m hm hne =>
    by_cases hmq : q = m
    · subst hmq
      rw [List.erase_cons_head] at hmem
      exact absurd hmem (List.nodup_cons.mp hv).1
    · rw [List.erase_cons_tail (by simpa using hmq)]
      rfl

/-- The first view has one member. -/
theorem head_of_first {w : List Str} {q : Str} (h : NextView [] w) (hmem : q ∈ w) :
    w.head? = some q := by
  cases h with
  | added m hm =>
    rw [List.nil_append, List.mem_singleton] at hmem
    rw [hmem]
    rfl
  | removed m hm hne => cases hm

/-- The first member of the previous view that stays is the oldest of the new one. -/
theorem find_of_next {v w : List Str} (hv : v.Nodup) (h : NextView v w) (hne : v ≠ []) :
    v.find? (isamember · w) = w.head? := by
  obtain ⟨x, rest, rfl⟩ := List.exists_cons_of_ne_nil hne
  by_cases hx : x ∈ w
  · rw [List.find?_cons_of_pos (p := (isamember · w)) (isamember_iff.mpr hx),
      head_of_next hv h rfl hx]
  · -- the oldest member has left, and the next in line was not touched
    rw [List.find?_cons_of_neg (p := (isamember · w)) (by simpa [isamember_iff] using hx)]
    cases h with
    | added m hm => exact absurd (List.mem_append_left _ List.mem_cons_self) hx
    | removed m hm hne =>
      have hmx : x = m := by
        by_contra hmx
        exact hx ((List.mem_erase_of_ne hmx).mpr List.mem_cons_self)
      subst hmx
      rw [List.erase_cons_head] at hne ⊢
      obtain ⟨y, rest, rfl⟩ := List.exists_cons_of_ne_nil hne
      exact List.find?_cons_of_pos (p := (isamember · (y :: rest)))
        (isamember_iff.mpr List.mem_cons_self)

/-! ## The nodes -/

structure Node where
  /-- The views whose value the acceptor has. -/
  known : ℕ → Bool
  instance_h : ℕ
  rsm : rsm

/-- What the config module of a node answers. -/
def Node.get_view (hist : List (List Str)) (nd : Node) (vid : ℕ) : List Str :=
  if nd.known vid then viewOf hist vid else []

/-- A log on its way to the node that has asked for it. -/
structure Dump where
  dst : Str
  known : ℕ → Bool
  instance_h : ℕ

structure System where
  nodes : Str → Node
  dumps : List Dump

/-- Every node is started with the name of a first node on its command line. -/
def start (first : Str → Str) : System :=
  ⟨fun p => ⟨fun _ => false, 0, rsm.new (first p)⟩, []⟩

inductive Act where
  /-- The acceptor of node `p` commits view `vid`. -/
  | learn (p : Str) (vid : ℕ)
  /-- The upcall of that commit reaches the layer. -/
  | commit_change (p : Str) (vid : ℕ)
  /-- The recovery thread of `p` asks its primary; `vid` is what the config module there
  has for its view after `add`. -/
  | joinreq (p : Str) (vid : ℕ)
  /-- The log arrives: `restore`, and `commit_change_wo(cfg->vid())`. -/
  | joined (p : Str) (k : ℕ)
  /-- A crash; what is read back from the log is part of what was known. -/
  | restart (p : Str) (first : Str) (kept : List ℕ) (instance_h : ℕ)
  deriving DecidableEq, Repr

def System.set (s : System) (p : Str) (nd : Node) : System :=
  { s with nodes := Function.update s.nodes p nd }

/-- `commit_change_wo` on node `p`. -/
def commitAt (hist : List (List Str)) (s : System) (p : Str) (nd : Node) (vid : ℕ) :
    Option System :=
  (commit_change_wo (nd.get_view hist) nd.rsm vid).map fun r => s.set p { nd with rsm := r.1 }

/-- The node after `config::restore`. -/
def Node.restore (nd : Node) (d : Dump) : Node :=
  { nd with known := fun i => nd.known i || d.known i, instance_h := d.instance_h }

/-- Does the handler at node `q` send its log to `p`? -/
def sendsLog (hist : List (List Str)) (q : Str) (nd : Node) (p : Str) (vid : ℕ) : Bool :=
  match Rsm.joinreq (nd.get_view hist) q nd.rsm p with
  | .dump => true
  | .BUSY => false
  | .add _ => isamember p (nd.get_view hist vid)

def step (hist : List (List Str)) (s : System) : Act → Option System
  | .learn p vid =>
    let nd := s.nodes p
    if vid > nd.instance_h then
      some (s.set p { nd with known := Function.update nd.known vid true, instance_h := vid })
    else none
  | .commit_change p vid =>
    let nd := s.nodes p
    if nd.known vid then commitAt hist s p nd vid else none
  | .joinreq p vid =>
    let nd := s.nodes p
    let q := nd.rsm.primary
    if isamember p (nd.get_view hist nd.rsm.vid_commit) = false
        ∧ sendsLog hist q (s.nodes q) p vid = true then
      some { s with dumps := s.dumps ++ [⟨p, (s.nodes q).known, (s.nodes q).instance_h⟩] }
    else none
  | .joined p k =>
    s.dumps[k]?.bind fun d =>
      if d.dst = p then
        commitAt hist { s with dumps := s.dumps.eraseIdx k } p ((s.nodes p).restore d) d.instance_h
      else none
  | .restart p first kept instance_h =>
    let nd := s.nodes p
    some (s.set p
      ⟨fun i => nd.known i && kept.contains i, instance_h, rsm.new first⟩)

/-! ## Skipping views -/

/-- A commit of `vid` at a node: unless it is the view after the last one committed there,
the node's primary is not in the view or is its oldest member. -/
def CommitOk (hist : List (List Str)) (r : rsm) (vid : ℕ) : Prop :=
  r.vid_commit < vid → vid = r.vid_commit + 1 ∨ r.primary ∉ viewOf hist vid
    ∨ (viewOf hist vid).head? = some r.primary

instance (hist : List (List Str)) (r : rsm) (vid : ℕ) : Decidable (CommitOk hist r vid) :=
  inferInstanceAs (Decidable (_ → _))

def SkipOk (hist : List (List Str)) (s : System) : Act → Prop
  | .commit_change p vid => CommitOk hist (s.nodes p).rsm vid
  | .joined p k => ∀ d ∈ s.dumps[k]?, CommitOk hist (s.nodes p).rsm d.instance_h
  | _ => True

instance (hist : List (List Str)) (s : System) (a : Act) : Decidable (SkipOk hist s a) :=
  match a with
  | .commit_change .. => inferInstanceAs (Decidable (CommitOk _ _ _))
  | .joined p k =>
    inferInstanceAs (Decidable (∀ d ∈ s.dumps[k]?, CommitOk hist (s.nodes p).rsm d.instance_h))
  | .learn .. | .joinreq .. | .restart .. => instDecidableTrue

/-- The primary is the oldest member of the last view committed. -/
def Oldest (hist : List (List Str)) (r : rsm) : Prop :=
  r.vid_commit = 0 ∨ (viewOf hist r.vid_commit).head? = some r.primary

variable {hist : List (List Str)}

/-- **A commit makes the oldest member the primary.** -/
theorem oldest_commit (hh : History hist) {nd : Node} {r' : rsm} {vid : ℕ} {b : Bool}
    (hold : Oldest hist nd.rsm) (hok : CommitOk hist nd.rsm vid)
    (hs : commit_change_wo (nd.get_view hist) nd.rsm vid = some (r', b)) : Oldest hist r' := by
  rcases commit_change_wo_cases hs with ⟨rfl, -⟩ | ⟨hlt, -, q, hq, rfl⟩
  · exact hold
  refine .inr ?_
  obtain ⟨i, rfl⟩ : ∃ i, vid = i + 1 := ⟨vid - 1, by omega⟩
  -- the view is known, or the first assertion would have failed
  have hmem := set_primary_mem hq
  have hknown : nd.get_view hist (i + 1) = viewOf hist (i + 1) := by
    unfold Node.get_view at hmem ⊢
    split
    · rfl
    · next hk => simp [hk] at hmem
  rw [hknown] at hmem
  have hnext := hh.next (List.ne_nil_of_mem hmem)
  simp only [set_primary, hknown, Nat.add_sub_cancel,
    if_pos (List.length_pos_of_ne_nil hnext.ne_nil)] at hq
  split at hq
  · next hstays =>
    -- the primary stays, so it must have been the oldest all along
    obtain rfl := Option.some.inj hq
    have hstays := isamember_iff.mp hstays
    rcases hok hlt with hturn | hout | hhead
    · obtain rfl : i = nd.rsm.vid_commit := by omega
      rcases hold with hzero | hhead
      · rw [hzero] at hnext hstays ⊢
        exact head_of_first hnext hstays
      · exact head_of_next (hh.nodup _) hnext hhead hstays
    · exact absurd hstays hout
    · exact hhead
  · split at hq
    · next hp =>
      have hprev : nd.get_view hist i = viewOf hist i := by
        unfold Node.get_view at hp ⊢
        split
        · rfl
        · next hk => simp [hk] at hp
      rw [hprev] at hq hp
      exact (find_of_next (hh.nodup i) hnext (List.ne_nil_of_length_pos hp)).symm.trans hq
    · cases hq

/-- A commit on one node. -/
theorem oldest_commitAt (hh : History hist) {s s' : System} {p : Str} {nd : Node} {vid : ℕ}
    (hall : ∀ q, Oldest hist (s.nodes q).rsm) (hnd : nd.rsm = (s.nodes p).rsm)
    (hok : CommitOk hist (s.nodes p).rsm vid) (hs : commitAt hist s p nd vid = some s') :
    ∀ q, Oldest hist (s'.nodes q).rsm := by
  obtain ⟨⟨r, b⟩, hr, rfl⟩ := Option.map_eq_some_iff.mp hs
  rw [← hnd] at hok
  have hold : Oldest hist nd.rsm := hnd ▸ hall p
  intro q
  by_cases hq : q = p
  · subst hq
    simp only [System.set, Function.update_self]
    exact oldest_commit hh hold hok hr
  · simp only [System.set, Function.update_of_ne hq]
    exact hall q

/-- Nothing but a commit moves the layer on; a restart takes it back to the start. -/
theorem oldest_set {s : System} {p : Str} {nd : Node} (hall : ∀ q, Oldest hist (s.nodes q).rsm)
    (hnd : Oldest hist nd.rsm) : ∀ q, Oldest hist ((s.set p nd).nodes q).rsm := by
  intro q
  by_cases hq : q = p
  · subst hq
    simpa only [System.set, Function.update_self] using hnd
  · simpa only [System.set, Function.update_of_ne hq] using hall q

/-- **One step.** -/
theorem oldest_step (hh : History hist) (s : System) (a : Act) (s' : System)
    (hall : ∀ q, Oldest hist (s.nodes q).rsm) (hok : SkipOk hist s a)
    (hs : step hist s a = some s') : ∀ q, Oldest hist (s'.nodes q).rsm := by
  cases a with
  | learn p vid =>
    simp only [step] at hs
    split at hs
    · cases hs
      exact oldest_set hall (hall p)
    · cases hs
  | commit_change p vid =>
    simp only [step] at hs
    split at hs
    · exact oldest_commitAt hh hall rfl hok hs
    · cases hs
  | joinreq p vid =>
    simp only [step] at hs
    split at hs
    · cases hs
      exact hall
    · cases hs
  | joined p k =>
    obtain ⟨d, hd, hs⟩ := Option.bind_eq_some_iff.mp hs
    split at hs
    · have hrsm : ((s.nodes p).restore d).rsm = (s.nodes p).rsm := rfl
      exact oldest_commitAt (s := { s with dumps := s.dumps.eraseIdx k }) hh hall hrsm
        (hok d hd) hs
    · cases hs
  | restart p first kept instance_h =>
    cases hs
    exact oldest_set hall (.inl rfl)

/-- **One primary per view.** In every run over a history of views in which a commit that
skips views finds the node's primary outside the new view or as its oldest member: any
two nodes that have committed the same view, one of them a member of it, have the same
primary. -/
theorem one_primary (hh : History hist) {first : Str → Str} {acts : List Act} {s : System}
    (hok : Steps.RunMeets (step hist) (SkipOk hist) (start first) acts)
    (hrun : Steps.run (step hist) (start first) acts = some s) {p q : Str}
    (hp : p ∈ viewOf hist (s.nodes p).rsm.vid_commit)
    (hsame : (s.nodes p).rsm.vid_commit = (s.nodes q).rsm.vid_commit) :
    (s.nodes p).rsm.primary = (s.nodes q).rsm.primary := by
  have hall : ∀ q, Oldest hist (s.nodes q).rsm :=
    Steps.run_inv (oldest_step hh) (fun _ => .inl rfl) hok hrun
  have hne : (s.nodes p).rsm.vid_commit ≠ 0 := by
    intro h0
    rw [h0] at hp
    cases hp
  rcases hall p with h0 | hhead
  · exact absurd h0 hne
  rcases hall q with h0 | hhead'
  · exact absurd (hsame.trans h0) hne
  rw [← hsame, hhead, Option.some.injEq] at hhead'
  exact hhead'

/-! ## A node that leaves and comes back -/

/-- Node 1 leaves in view 4 and comes back in view 5. -/
def comeBack : List (List Str) :=
  [[['1']], [['1'], ['2']], [['1'], ['2'], ['3']], [['2'], ['3']], [['2'], ['3'], ['1']]]

theorem history_comeBack : History comeBack := by
  refine .cons_cons (.added ['1'] (by decide)) ?_
  refine .cons_cons (.added ['2'] (by decide)) ?_
  refine .cons_cons (.added ['3'] (by decide)) ?_
  refine .cons_cons (.removed ['1'] (by decide) (by decide)) ?_
  exact .cons_cons (.added ['1'] (by decide)) (.singleton _)

/-- Node `p` commits view `vid`. -/
def commits (p : Str) (vid : ℕ) : List Act := [.learn p vid, .commit_change p vid]

/-- Nodes 2 and 3 join node 1; it fails, and the others commit view 4. -/
def withoutOne : List Act :=
  commits ['1'] 1 ++ commits ['1'] 2 ++ [Act.joinreq ['2'] 2, Act.joined ['2'] 0]
    ++ commits ['1'] 3 ++ commits ['2'] 3 ++ [Act.joinreq ['3'] 3, Act.joined ['3'] 0]
    ++ commits ['2'] 4 ++ commits ['3'] 4

/-- Node 1 is started again with node 2 as the first node and joins in view 5. -/
def oneComesBack : List Act :=
  withoutOne ++ [Act.restart ['1'] ['2'] [1, 2, 3] 3] ++ commits ['2'] 5 ++ commits ['3'] 5
    ++ [Act.joinreq ['1'] 5, Act.joined ['1'] 0]

theorem one_primary_oneComesBack :
    ∃ s, Steps.run (step comeBack) (start fun _ => ['1']) oneComesBack = some s
      ∧ (s.nodes ['1']).rsm.vid_commit = 5 ∧ (s.nodes ['3']).rsm.vid_commit = 5
      ∧ (s.nodes ['3']).rsm.primary = (s.nodes ['1']).rsm.primary := by
  have hex : (Steps.run (step comeBack) (start fun _ => ['1']) oneComesBack).map
      (fun s => ((s.nodes ['1']).rsm.vid_commit, (s.nodes ['3']).rsm.vid_commit))
        = some (5, 5) := by decide
  have hok : Steps.RunMeets (step comeBack) (SkipOk comeBack) (start fun _ => ['1'])
      oneComesBack := by decide
  obtain ⟨s, hs, hf⟩ := Steps.exists_run hex
  rw [Prod.mk.injEq] at hf
  have hmem : (['3'] : Str) ∈ viewOf comeBack (s.nodes ['3']).rsm.vid_commit := by
    rw [hf.2]
    decide
  exact ⟨s, hs, hf.1, hf.2, one_primary history_comeBack hok hs hmem (hf.2.trans hf.1.symm)⟩

/-- Node 3 restarts with node 1 as the first node on its command line. Node 1 finds that
it is still a member and sends its log, although node 2 is the primary. -/
def restarted : List Act :=
  oneComesBack ++ [Act.restart ['3'] ['1'] [1, 2, 3, 4, 5] 5,
      Act.joinreq ['3'] 5, Act.joined ['3'] 0]

/-- On node 3 the upcall of view 5 overtakes the one of view 4. -/
def overtaken : List Act :=
  commits ['1'] 1 ++ commits ['1'] 2 ++ [Act.joinreq ['2'] 2, Act.joined ['2'] 0]
    ++ commits ['1'] 3 ++ commits ['2'] 3 ++ [Act.joinreq ['3'] 3, Act.joined ['3'] 0]
    ++ commits ['2'] 4 ++ commits ['2'] 5
    ++ [Act.learn ['3'] 4, Act.learn ['3'] 5, Act.commit_change ['3'] 5, Act.commit_change ['3'] 4]

/-- Nodes 2 and 3, both members, have committed view 5 and disagree on its primary. -/
def TwoPrimaries (s : System) : Prop :=
  (s.nodes ['2']).rsm.vid_commit = 5 ∧ (s.nodes ['3']).rsm.vid_commit = 5
    ∧ (s.nodes ['2']).rsm.primary = ['2'] ∧ (s.nodes ['3']).rsm.primary = ['1']

/-- **Two primaries in one view**: after a restart, and after a view that was skipped. -/
theorem two_primaries :
    (['2'] ∈ viewOf comeBack 5 ∧ ['3'] ∈ viewOf comeBack 5)
      ∧ (∃ s, Steps.run (step comeBack) (start fun _ => ['1']) restarted = some s
          ∧ TwoPrimaries s)
      ∧ ∃ s, Steps.run (step comeBack) (start fun _ => ['1']) overtaken = some s
          ∧ TwoPrimaries s := by
  have hex : ∀ acts ∈ [restarted, overtaken],
      (Steps.run (step comeBack) (start fun _ => ['1']) acts).map
        (fun s => ((s.nodes ['2']).rsm.vid_commit, (s.nodes ['3']).rsm.vid_commit,
          (s.nodes ['2']).rsm.primary, (s.nodes ['3']).rsm.primary))
        = some (5, 5, ['2'], ['1']) := by decide
  have hfound : ∀ acts ∈ [restarted, overtaken],
      ∃ s, Steps.run (step comeBack) (start fun _ => ['1']) acts = some s ∧ TwoPrimaries s := by
    intro acts hacts
    obtain ⟨s, hs, hf⟩ := Steps.exists_run (hex acts hacts)
    simp only [Prod.mk.injEq] at hf
    exact ⟨s, hs, hf⟩
  exact ⟨by decide, hfound _ (.head _), hfound _ (.tail _ (.head _))⟩

end Yfs.RsmPrimary
