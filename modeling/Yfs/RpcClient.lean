/-
The RPC client's side of at-most-once: `rpcc::update_xid_rep`, and the critical
sections of `rpcc::call1`, `rpcc::got_pdu`, `rpcc::bind` and `rpcc::cancel`
(`rpc/rpc.cc`).

`update_xid_rep` keeps a sorted list whose front says "a reply for every call up to
here has arrived". `WindowInv` is its meaning: against the set of reported xids, the
front is the end of the longest reported prefix and the rest of the list holds
exactly the reported xids above it. Xids are `unsigned int`; the one addition of
the compress loop wraps, and `wrap32_succ_eq_iff` is why that never matters.
-/
import Yfs.RpcDispatch
import Yfs.Steps
import Mathlib.Algebra.Group.Nat.Defs
import Mathlib.Data.List.Sort
import Mathlib.Data.List.TakeWhile
import Mathlib.Order.Bounds.Defs
import Mathlib.Tactic.Push

set_option autoImplicit false

namespace Yfs.RpcClient

open Yfs.RpcDispatch

/-- Conversion of a natural number to `unsigned int`. -/
def wrap32 (n : ℕ) : ℕ := n % 2 ^ 32

/-- In a sorted list of `unsigned int`s, the wrapped successor of an earlier element
is a later element only when the unwrapped one is. -/
theorem wrap32_succ_eq_iff {y x : ℕ} (hyx : y ≤ x) (hx : x < 2 ^ 32) :
    wrap32 (y + 1) = x ↔ y + 1 = x := by
  unfold wrap32
  by_cases hy : y + 1 < 2 ^ 32
  · rw [Nat.mod_eq_of_lt hy]
  -- the only number that wraps is the greatest one, and 0 is no later element
  · have hy' : y + 1 = 2 ^ 32 := by omega
    rw [hy', Nat.mod_self]
    omega

/-! ## `update_xid_rep` -/

/-- Insertion before the first greater element, at the end when there is none. -/
def insert_xid (xid : ℕ) : List ℕ → List ℕ
  | [] => [xid]
  | y :: ys => if xid < y then xid :: y :: ys else y :: insert_xid xid ys

/-- The compress loop with the iterator between `before` and the rest: while the
front plus one is the element under the iterator, the front is popped. The element
under the iterator is never its own successor, so the inner loop stops at it. -/
def compress_loop : List ℕ → List ℕ → List ℕ
  | before, [] => before
  | before, x :: after =>
    compress_loop (before.dropWhile (fun y => wrap32 (y + 1) == x) ++ [x]) after

/-- The loop starts with the iterator behind the first element. -/
def compress : List ℕ → List ℕ
  | [] => []
  | front :: rest => compress_loop [front] rest

/-- `xid_rep_window_.front()`; the list is never empty. -/
def front (w : List ℕ) : ℕ := w.headD 0

/-- `rpcc::update_xid_rep`. -/
def update_xid_rep (w : List ℕ) (xid : ℕ) : List ℕ :=
  if xid ≤ front w then w else compress (insert_xid xid w)

/-! ## What the window means -/

/-- The window against the set `R` of reported xids. -/
structure WindowInv (w : List ℕ) (R : ℕ → Prop) : Prop where
  ne_nil : w ≠ []
  sorted : w.Pairwise (· ≤ ·)
  bounded : ∀ y ∈ w, y < 2 ^ 32
  /-- Everything up to the front is reported. -/
  reported : ∀ y, 1 ≤ y → y ≤ front w → R y
  /-- The front is the end of the prefix. -/
  maximal : ¬ R (front w + 1)
  /-- Above the front the list is the set. -/
  above : ∀ y, front w < y → (y ∈ w ↔ R y)

theorem mem_insert_xid (xid y : ℕ) (w : List ℕ) : y ∈ insert_xid xid w ↔ y = xid ∨ y ∈ w := by
  induction w with
  | nil => simp [insert_xid]
  | cons z w ih =>
    by_cases hz : xid < z
    · simp [insert_xid, hz]
    · simp only [insert_xid, hz, if_false, List.mem_cons, ih]
      tauto

theorem insert_xid_sorted (xid : ℕ) {w : List ℕ} (hw : w.Pairwise (· ≤ ·)) :
    (insert_xid xid w).Pairwise (· ≤ ·) := by
  induction w with
  | nil => simp [insert_xid]
  | cons z w ih =>
    have hz : ∀ y ∈ w, z ≤ y := fun y hy => List.rel_of_pairwise_cons hw hy
    by_cases hlt : xid < z
    · rw [insert_xid, if_pos hlt, List.pairwise_cons]
      refine ⟨fun y hy => ?_, hw⟩
      rcases List.mem_cons.mp hy with rfl | hy
      · omega
      · exact le_trans (le_of_lt hlt) (hz y hy)
    · rw [insert_xid, if_neg hlt, List.pairwise_cons]
      refine ⟨fun y hy => ?_, ih (List.Pairwise.of_cons hw)⟩
      rcases (mem_insert_xid xid y w).mp hy with rfl | hy
      · omega
      · exact hz y hy

/-- Insertion above the front keeps the front. -/
theorem insert_xid_of_front_lt {xid k : ℕ} {rest : List ℕ} (h : k < xid) :
    insert_xid xid (k :: rest) = k :: insert_xid xid rest := by
  rw [insert_xid, if_neg (by omega)]

/-- The invariant of the compress loop, with the iterator between `before` and `after`: the
window invariant, with `maximal` restricted to the elements the iterator has passed. -/
structure Passed (R : ℕ → Prop) (before after : List ℕ) : Prop where
  ne_nil : before ≠ []
  sorted : (before ++ after).Pairwise (· ≤ ·)
  bounded : ∀ y ∈ before ++ after, y < 2 ^ 32
  reported : ∀ y, 1 ≤ y → y ≤ front before → R y
  maximal : front before + 1 ∉ before
  above : ∀ y, front before < y → (y ∈ before ++ after ↔ R y)

section Passed

variable {R : ℕ → Prop} {f x : ℕ} {before after : List ℕ}

theorem Passed.windowInv (h : Passed R before []) : WindowInv before R := by
  obtain ⟨hne, hsorted, hbound, hrep, hmax, habove⟩ := h
  rw [List.append_nil] at hsorted hbound habove
  refine ⟨hne, hsorted, hbound, hrep, ?_, habove⟩
  exact fun hR => hmax ((habove _ (Nat.lt_succ_self _)).mpr hR)

theorem Passed.le (h : Passed R before (x :: after)) {y : ℕ} (hy : y ∈ before) : y ≤ x :=
  (List.pairwise_append.mp h.sorted).2.2 y hy x List.mem_cons_self

theorem Passed.succ_eq_iff (h : Passed R before (x :: after)) {y : ℕ} (hy : y ∈ before) :
    (wrap32 (y + 1) == x) = true ↔ y + 1 = x := by
  rw [beq_iff_eq, wrap32_succ_eq_iff (h.le hy)]
  exact h.bounded x (List.mem_append_right _ List.mem_cons_self)

/-- Before the successor of the front the iterator has passed only the front: a smaller
element would be below it, and a greater one would be its successor. -/
theorem Passed.eq_front (h : Passed R (f :: before) (x :: after)) (hpop : f + 1 = x) {y : ℕ}
    (hy : y ∈ f :: before) : y = f := by
  have hle := h.le hy
  have hge : f ≤ y := by
    rcases List.mem_cons.mp hy with rfl | hy
    · exact le_refl _
    · exact List.rel_of_pairwise_cons (List.pairwise_append.mp h.sorted).1 hy
  have hne : y ≠ f + 1 := fun heq => h.maximal (heq ▸ hy)
  omega

/-- The front is popped, and the element under the iterator is the next one. -/
theorem Passed.pop (h : Passed R (f :: before) (x :: after)) (hpop : f + 1 = x) :
    Passed R [x] after := by
  have habove : ∀ y, f < y → (y ∈ (f :: before) ++ x :: after ↔ R y) := h.above
  refine ⟨by simp, (List.pairwise_append.mp h.sorted).2.1, ?_, ?_, ?_, ?_⟩
  · intro y hy
    exact h.bounded y (List.mem_append_right _ hy)
  · intro y hy1 hyx
    have hyx' : y ≤ x := hyx
    rcases Nat.lt_or_ge f y with hfy | hfy
    · obtain rfl : y = x := by omega
      exact (habove y hfy).mp (by simp)
    · exact h.reported y hy1 hfy
  · have hx1 : front [x] + 1 = x + 1 := rfl
    rw [hx1, List.mem_singleton]
    omega
  · intro y hy
    have hxy : x < y := hy
    rw [← habove y (by omega)]
    have hnot : y ∉ f :: before := by
      intro hmem
      have heq := h.eq_front hpop hmem
      omega
    rw [List.mem_append, List.mem_append, or_iff_right hnot, List.mem_singleton, List.mem_cons]

/-- The front is not the predecessor of the element under the iterator, which is passed. -/
theorem Passed.pass (h : Passed R (f :: before) (x :: after)) (hpop : f + 1 ≠ x) :
    Passed R (f :: before ++ [x]) after := by
  have hassoc : (f :: before) ++ [x] ++ after = (f :: before) ++ x :: after := by simp
  refine ⟨by simp, ?_, ?_, h.reported, ?_, ?_⟩
  · rw [hassoc]
    exact h.sorted
  · rw [hassoc]
    exact h.bounded
  · have hf : front (f :: before ++ [x]) = f := rfl
    rw [hf, List.mem_append, List.mem_singleton, not_or]
    exact ⟨h.maximal, hpop⟩
  · rw [hassoc]
    exact h.above

/-- **The compress loop.** -/
theorem compress_loop_inv (h : Passed R before after) :
    WindowInv (compress_loop before after) R := by
  -- the iterator moves right: induction on what is behind it, for any list before it
  induction after generalizing before with
  | nil => exact h.windowInv
  | cons x after ih =>
    obtain ⟨f, before, rfl⟩ := List.exists_cons_of_ne_nil h.ne_nil
    rw [compress_loop]
    by_cases hpop : f + 1 = x
    · have hdrop : (f :: before).dropWhile (fun y => wrap32 (y + 1) == x) = [] := by
        rw [List.dropWhile_eq_nil_iff]
        intro y hy
        rw [h.succ_eq_iff hy, h.eq_front hpop hy]
        exact hpop
      rw [hdrop]
      exact ih (h.pop hpop)
    · have hdrop : (f :: before).dropWhile (fun y => wrap32 (y + 1) == x) = f :: before := by
        rw [List.dropWhile_cons_of_neg]
        rw [h.succ_eq_iff List.mem_cons_self]
        exact hpop
      rw [hdrop]
      exact ih (h.pass hpop)

end Passed

/-- The window a client starts with, before anything is reported. -/
theorem windowInv_init {R : ℕ → Prop} (hR : ∀ y, ¬ R y) : WindowInv [0] R where
  ne_nil := by simp
  sorted := by simp
  bounded := by simp
  reported := by
    intro y h1 h0
    have h0' : y ≤ 0 := h0
    omega
  maximal := hR _
  above := by
    intro y hy
    have hy' : 0 < y := hy
    simp only [List.mem_singleton, hR y, iff_false]
    omega

/-- **The spec of `update_xid_rep`**: one more xid is reported. -/
theorem update_xid_rep_spec {w : List ℕ} {R : ℕ → Prop} {xid : ℕ} (hw : WindowInv w R)
    (hpos : 1 ≤ xid) (hxid : xid < 2 ^ 32) :
    WindowInv (update_xid_rep w xid) (fun y => R y ∨ y = xid) := by
  obtain ⟨k, rest, rfl⟩ := List.exists_cons_of_ne_nil hw.ne_nil
  have hfront : front (k :: rest) = k := rfl
  have hrep := hw.reported
  have hmax := hw.maximal
  have habove := hw.above
  rw [hfront] at hrep hmax habove
  unfold update_xid_rep
  rw [hfront]
  by_cases hle : xid ≤ k
  -- a second or late report, at or below the front already
  · rw [if_pos hle]
    refine ⟨hw.ne_nil, hw.sorted, hw.bounded, fun y h1 h2 => Or.inl (hrep y h1 h2), ?_, ?_⟩
    · rw [hfront]
      rintro (h | h)
      · exact hmax h
      · omega
    · intro y hy
      rw [hfront] at hy
      rw [habove y hy, or_iff_left (by omega)]
  · rw [if_neg hle, insert_xid_of_front_lt (by omega), compress]
    have hsorted := insert_xid_sorted xid hw.sorted
    rw [insert_xid_of_front_lt (by omega : k < xid)] at hsorted
    refine compress_loop_inv ⟨by simp, hsorted, ?_, ?_, ?_, ?_⟩
    · intro y hy
      rcases List.mem_cons.mp hy with rfl | hy
      · exact hw.bounded _ (by simp)
      · rcases (mem_insert_xid xid y rest).mp hy with rfl | hy
        · exact hxid
        · exact hw.bounded y (List.mem_cons_of_mem _ hy)
    · exact fun y h1 h2 => Or.inl (hrep y h1 h2)
    · have hk : front [k] + 1 = k + 1 := rfl
      rw [hk, List.mem_singleton]
      omega
    · intro y hy
      have hky : k < y := hy
      have hne : y ≠ k := by omega
      rw [← habove y hky]
      simp only [List.cons_append, List.nil_append, List.mem_cons, hne, false_or, mem_insert_xid]
      tauto

/-! ## The list and its iterator

`compress_loop` has the popped elements drop off a list. In the source the iterator is into
the list that is popped. Here an element under the iterator that is popped, and a step or a
read of an iterator that is not at an element, is a fault. -/

/-- `while (front() + 1 == *it) pop_front()`, with the elements before the iterator, which
is at `x`. -/
def pop_fronts (x : ℕ) : List ℕ → Option (List ℕ)
  -- the front is the element under the iterator
  | [] => if wrap32 (x + 1) = x then none else some []
  | y :: ys => if wrap32 (y + 1) = x then pop_fronts x ys else some (y :: ys)

/-- The compress loop, with the elements before the iterator and those from it on. -/
def compress_iter : List ℕ → List ℕ → Option (List ℕ)
  | before, [] => some before
  | before, x :: after =>
    (pop_fronts x before).bind fun before' => compress_iter (before' ++ [x]) after

/-- `rpcc::update_xid_rep`; `none` is a fault. -/
def update_xid_rep_iter (w : List ℕ) (xid : ℕ) : Option (List ℕ) :=
  match w with
  | [] => none
  | k :: rest =>
    if xid ≤ k then some (k :: rest)
    else
      match insert_xid xid (k :: rest) with
      -- `it++` at the end
      | [] => none
      | y :: ys => compress_iter [y] ys

theorem wrap32_succ_ne (x : ℕ) : wrap32 (x + 1) ≠ x := by
  unfold wrap32
  omega

/-- The inner loop stops at the element under the iterator. -/
theorem pop_fronts_eq (x : ℕ) (before : List ℕ) :
    pop_fronts x before = some (before.dropWhile fun y => wrap32 (y + 1) == x) := by
  induction before with
  | nil => rw [pop_fronts, if_neg (wrap32_succ_ne x), List.dropWhile_nil]
  | cons y ys ih =>
    rw [pop_fronts, List.dropWhile_cons]
    by_cases hy : wrap32 (y + 1) = x
    · rw [if_pos hy, ih, if_pos (beq_iff_eq.mpr hy)]
    · rw [if_neg hy, if_neg (fun h => hy (beq_iff_eq.mp h))]

theorem compress_iter_eq (before after : List ℕ) :
    compress_iter before after = some (compress_loop before after) := by
  induction after generalizing before with
  | nil => rfl
  | cons x after ih =>
    rw [compress_iter, pop_fronts_eq, Option.bind_some, ih, compress_loop]

/-- **No fault.** On a list that is not empty the iterator is always at an element. -/
theorem update_xid_rep_iter_eq {w : List ℕ} (hw : w ≠ []) (xid : ℕ) :
    update_xid_rep_iter w xid = some (update_xid_rep w xid) := by
  obtain ⟨k, rest, rfl⟩ := List.exists_cons_of_ne_nil hw
  have hfront : front (k :: rest) = k := rfl
  rw [update_xid_rep_iter, update_xid_rep, hfront]
  by_cases hle : xid ≤ k
  · rw [if_pos hle, if_pos hle]
  · rw [if_neg hle, if_neg hle, insert_xid_of_front_lt (by omega), compress]
    exact compress_iter_eq [k] _

/-- Any sequence of reports runs without a fault, and adds to the set of reported xids. -/
theorem reports_spec {w : List ℕ} {R : ℕ → Prop} (hw : WindowInv w R) (xids : List ℕ)
    (hx : ∀ x ∈ xids, 0 < x ∧ x < 2 ^ 32) :
    Steps.run update_xid_rep_iter w xids = some (xids.foldl update_xid_rep w)
      ∧ WindowInv (xids.foldl update_xid_rep w) (fun y => R y ∨ y ∈ xids) := by
  induction xids generalizing w R with
  | nil =>
    refine ⟨rfl, ?_⟩
    simpa using hw
  | cons x xids ih =>
    obtain ⟨hpos, hlt⟩ := hx x List.mem_cons_self
    have hnext := update_xid_rep_spec hw hpos hlt
    obtain ⟨hrun, hw'⟩ := ih hnext fun y hy => hx y (List.mem_cons_of_mem _ hy)
    refine ⟨?_, ?_⟩
    · rw [Steps.run_cons, update_xid_rep_iter_eq hw.ne_nil, Option.bind_some, hrun]
      rfl
    · simpa only [List.mem_cons, List.foldl_cons, or_assoc] using hw'

/-- **The front of the window.** After any reports of positive xids, in any order and as often
as one likes, the front is the largest `k` such that 1 to `k` have been reported, the window
is sorted, above its front it holds what was reported above `k`, and it is not empty: no
element was popped that the iterator was at. -/
theorem reply_window_front (xids : List ℕ) (hx : ∀ x ∈ xids, 0 < x ∧ x < 2 ^ 32 - 1) :
    ∃ w, Steps.run update_xid_rep_iter [0] xids = some w
      ∧ w = xids.foldl update_xid_rep [0]
      ∧ w ≠ []
      ∧ IsGreatest {k | ∀ y, 1 ≤ y → y ≤ k → y ∈ xids} (front w)
      ∧ w.Pairwise (· ≤ ·)
      ∧ ∀ y, front w < y → (y ∈ w ↔ y ∈ xids) := by
  have hstart : WindowInv [0] (fun _ => False) := windowInv_init fun _ => not_false
  obtain ⟨hrun, hw⟩ := reports_spec hstart xids fun x hmem =>
    ⟨(hx x hmem).1, lt_of_lt_of_le (hx x hmem).2 (Nat.sub_le _ _)⟩
  simp only [false_or] at hw
  refine ⟨_, hrun, rfl, hw.ne_nil, ⟨hw.reported, ?_⟩, hw.sorted, hw.above⟩
  -- a larger prefix would contain the successor of the front
  intro k hk
  by_contra hlt
  exact hw.maximal (hk _ (by omega) (by omega))

/-- Reports twice each and out of order. -/
theorem reply_window_front_outOfOrder :
    ∃ w, Steps.run update_xid_rep_iter [0] [2, 1, 5, 2, 4, 1, 5] = some w
      ∧ IsGreatest {k | ∀ y, 1 ≤ y → y ≤ k → y ∈ [2, 1, 5, 2, 4, 1, 5]} (front w)
      ∧ w = [2, 4, 5, 5] := by
  obtain ⟨w, hrun, hw, -, hfront, -⟩ := reply_window_front [2, 1, 5, 2, 4, 1, 5] (by decide)
  exact ⟨w, hrun, hfront, hw.trans (by decide)⟩

/-! ## The critical sections of `rpcc` -/

/-- The procedure number reserved for `bind`. -/
def bind_proc : ℕ := 1

/-- `rpcc::caller`, less its mutex and condition variable; `un` is the reply body it
took in. `intret` is read only when `done` is set. -/
structure caller (γ : Type*) where
  un : Option γ
  intret : ℤ
  done : Bool

/-- What `rpcc` keeps under `m_`. -/
structure rpcc (γ : Type*) where
  clt_nonce_ : ℕ
  srv_nonce_ : ℕ
  bind_done_ : Bool
  xid_ : ℕ
  destroy_wait_ : Bool
  calls_ : ℕ → Option (caller γ)
  xid_rep_window_ : List ℕ

variable {γ : Type*}

/-- The constructor. -/
def rpcc.init (clt_nonce_ : ℕ) : rpcc γ :=
  ⟨clt_nonce_, 0, false, 1, false, fun _ => none, [0]⟩

/-- The first critical section of `call1`: the call is refused, or it takes the next
xid, enters `calls_` and packs the header with the current window front. -/
def call1_begin (c : rpcc γ) (proc : ℕ) : Except ℤ (req_header × rpcc γ) :=
  if (proc ≠ bind_proc ∧ ¬ c.bind_done_) ∨ (proc = bind_proc ∧ c.bind_done_) then
    .error bind_failure
  else if c.destroy_wait_ then .error cancel_failure
  else
    .ok (⟨c.xid_, proc, c.clt_nonce_, c.srv_nonce_, front c.xid_rep_window_⟩,
      { c with
        xid_ := wrap32 (c.xid_ + 1)
        calls_ := Function.update c.calls_ c.xid_ (some ⟨none, 0, false⟩) })

/-- The last critical section of `call1`: the call leaves `calls_` and reports its
xid, also when it timed out. -/
def call1_end (c : rpcc γ) (xid : ℕ) : rpcc γ :=
  { c with
    calls_ := Function.update c.calls_ xid none
    xid_rep_window_ := update_xid_rep c.xid_rep_window_ xid }

/-- The value `call1` returns. -/
def call1_return (c : rpcc γ) (xid : ℕ) : ℤ :=
  match c.calls_ xid with
  | some ca => if ca.done then ca.intret else timeout_failure
  | none => timeout_failure

/-- `rpcc::got_pdu` on a reply that unmarshals: the xid is reported, and a call that
is pending and not done takes the reply. -/
def got_pdu (c : rpcc γ) (h : reply_pdu γ) : rpcc γ :=
  -- the report comes first, whether or not a call is still pending
  let c' := { c with xid_rep_window_ := update_xid_rep c.xid_rep_window_ h.xid }
  match c'.calls_ h.xid with
  | none => c'
  | some ca =>
    if ca.done then c'
    else { c' with calls_ := Function.update c'.calls_ h.xid (some ⟨h.body, h.ret, true⟩) }

/-- The calls after a reply: only the answered one may have changed, to done. -/
theorem got_pdu_calls {c : rpcc γ} {pdu : reply_pdu γ} {y : ℕ} {ca : caller γ}
    (hca : (got_pdu c pdu).calls_ y = some ca) :
    c.calls_ y = some ca ∧ (y = pdu.xid → ca.done = true)
      ∨ y = pdu.xid ∧ ca = ⟨pdu.body, pdu.ret, true⟩
          ∧ ∃ ca', c.calls_ y = some ca' ∧ ca'.done = false := by
  simp only [got_pdu] at hca
  cases hc : c.calls_ pdu.xid with
  | none =>
    simp only [hc] at hca
    refine Or.inl ⟨hca, ?_⟩
    rintro rfl
    rw [hc] at hca
    cases hca
  | some ca' =>
    simp only [hc] at hca
    by_cases hd : ca'.done = true
    · rw [if_pos hd] at hca
      refine Or.inl ⟨hca, ?_⟩
      rintro rfl
      rw [hc, Option.some.injEq] at hca
      exact hca ▸ hd
    · rw [if_neg hd] at hca
      dsimp only at hca
      by_cases hy : y = pdu.xid
      · subst hy
        rw [Function.update_self, Option.some.injEq] at hca
        exact Or.inr ⟨rfl, hca.symm, ca', hc, Bool.eq_false_of_not_eq_true hd⟩
      · rw [Function.update_of_ne hy] at hca
        exact Or.inl ⟨hca, fun h => absurd h hy⟩

/-- A reply reports its xid and touches nothing else but the calls. -/
theorem got_pdu_rest (c : rpcc γ) (pdu : reply_pdu γ) :
    (got_pdu c pdu).clt_nonce_ = c.clt_nonce_ ∧ (got_pdu c pdu).xid_ = c.xid_
      ∧ (got_pdu c pdu).xid_rep_window_ = update_xid_rep c.xid_rep_window_ pdu.xid := by
  simp only [got_pdu]
  cases c.calls_ pdu.xid with
  | none => exact ⟨rfl, rfl, rfl⟩
  | some ca =>
    dsimp only
    split_ifs <;> exact ⟨rfl, rfl, rfl⟩

/-- `rpcc::bind` stores the server's nonce when its call returned 0. -/
def bind_store (c : rpcc γ) (r : ℕ) : rpcc γ :=
  { c with bind_done_ := true, srv_nonce_ := r }

/-- `rpcc::cancel` forces every pending call to fail. `destroy_wait_` is set in the
wait loop, which is entered only when some call is pending; with none pending
`cancel` does nothing. -/
def cancel (c : rpcc γ) : rpcc γ :=
  { c with
    destroy_wait_ := true
    calls_ := fun xid => (c.calls_ xid).map fun ca =>
      { ca with done := true, intret := cancel_failure } }

end Yfs.RpcClient
