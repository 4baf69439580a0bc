/-
The view changes of the replicated state machine (`rsm.cc`).

Each function is what one thread does while it holds `rsm_mutex`. What the config
module knows of the views is a parameter: `get_view vid` is the empty list as long as
the value of `vid` has not reached the node. A `VERIFY` that fails is `none`.
-/
import Yfs.Views

set_option autoImplicit false

namespace Yfs.Rsm

open Text Yfs.PaxosProposer Yfs.Views

/-! ## The members -/

structure viewstamp where
  vid : ℕ
  seqno : ℕ
  deriving DecidableEq, Repr

structure rsm where
  primary : Str
  insync : Bool
  inviewchange : Bool
  /-- The latest view the layer knows of. -/
  vid_commit : ℕ
  /-- The view this node synchronises for; not initialised in the source, and never read
  before it is set. -/
  vid_insync : ℕ
  myvs : viewstamp
  deriving DecidableEq, Repr

/-- The constructor, before the first view is committed. -/
def rsm.new (first : Str) : rsm := ⟨first, false, true, 0, 0, ⟨0, 1⟩⟩

/-! ## A new view -/

/-- `set_primary`: the primary stays if it is in the view, otherwise it is the first
member of the previous view that is. -/
def set_primary (get_view : ℕ → List Str) (primary : Str) (vid : ℕ) : Option Str :=
  let c := get_view vid
  let p := get_view (vid - 1)
  if c.length > 0 then
    if isamember primary c then some primary
    else if p.length > 0 then p.find? (isamember · c)
    else none
  else none

/-- `commit_change_wo`; whether `recovery_cond` is signalled. -/
def commit_change_wo (get_view : ℕ → List Str) (r : rsm) (vid : ℕ) : Option (rsm × Bool) :=
  if vid ≤ r.vid_commit then some (r, false)
  else (set_primary get_view r.primary vid).map fun primary =>
    ({ r with vid_commit := vid, inviewchange := true, primary := primary }, true)

/-! ## A node asks to join -/

/-- What `joinreq` does first. -/
inductive JoinAnswer where
  /-- The node is still a member: it gets the log. -/
  | dump
  | BUSY
  /-- `cfg->add(m, vid_cache)`, without `rsm_mutex`. -/
  | add (vid_cache : ℕ)
  deriving DecidableEq, Repr

def joinreq (get_view : ℕ → List Str) (me : Str) (r : rsm) (m : Str) : JoinAnswer :=
  if isamember m (get_view r.vid_commit) then .dump
  else if me ≠ r.primary then .BUSY
  else .add r.vid_commit

/-! ## What they do -/

/-- **The assertions of `set_primary`** hold for a view whose predecessor is known. -/
theorem set_primary_isSome {get_view : ℕ → List Str} {vid : ℕ} (hp : get_view (vid - 1) ≠ [])
    (hnext : NextView (get_view (vid - 1)) (get_view vid)) (primary : Str) :
    ∃ q, set_primary get_view primary vid = some q := by
  have hc : (get_view vid).length > 0 := List.length_pos_of_ne_nil hnext.ne_nil
  unfold set_primary
  simp only [if_pos hc, if_pos (List.length_pos_of_ne_nil hp)]
  split
  · exact ⟨primary, rfl⟩
  · rw [← Option.isSome_iff_exists, List.find?_isSome]
    obtain ⟨x, hx, hstays⟩ := hnext.exists_stays hp
    exact ⟨x, hx, isamember_iff.mpr hstays⟩

/-- A primary that is set is a member of the view. -/
theorem set_primary_mem {get_view : ℕ → List Str} {primary q : Str} {vid : ℕ}
    (h : set_primary get_view primary vid = some q) : q ∈ get_view vid := by
  unfold set_primary at h
  simp only at h
  split at h
  · split at h
    · next hmem =>
      cases h
      exact isamember_iff.mp hmem
    · split at h
      · exact isamember_iff.mp (List.find?_some (p := (isamember · (get_view vid))) h)
      · cases h
  · cases h

/-- What a committed view changes. -/
theorem commit_change_wo_cases {get_view : ℕ → List Str} {r r' : rsm} {vid : ℕ} {b : Bool}
    (h : commit_change_wo get_view r vid = some (r', b)) :
    (r' = r ∧ b = false)
      ∨ (r.vid_commit < vid ∧ b = true ∧ ∃ q, set_primary get_view r.primary vid = some q
        ∧ r' = { r with vid_commit := vid, inviewchange := true, primary := q }) := by
  unfold commit_change_wo at h
  split at h
  · cases h
    exact .inl ⟨rfl, rfl⟩
  · next hgt =>
    obtain ⟨q, hq, heq⟩ := Option.map_eq_some_iff.mp h
    cases heq
    exact .inr ⟨by omega, rfl, q, hq, rfl⟩

theorem commit_change_wo_mono {get_view : ℕ → List Str} {r r' : rsm} {vid : ℕ} {b : Bool}
    (h : commit_change_wo get_view r vid = some (r', b)) : r.vid_commit ≤ r'.vid_commit := by
  rcases commit_change_wo_cases h with ⟨rfl, -⟩ | ⟨hlt, -, q, -, rfl⟩
  · exact le_rfl
  · exact hlt.le

end Yfs.Rsm
