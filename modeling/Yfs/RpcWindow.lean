/-
The at-most-once window of the RPC server: `rpcs::checkduplicate_and_update` and
`rpcs::add_reply` (`rpc/rpc.cc`, `rpc/rpc.h`).

The server keeps two maps indexed by client nonce, the window of remembered
requests and the list of forgotten ones. One call looks the request up, inserts
it when it is new, and trims everything up to the acknowledged `xid_rep`. All the
reasoning below goes through `view`, which says what the two maps together
remember of one request; `view_check` and `view_add_reply` say what the two
functions do to it, and nothing after them looks at the lists again.

Buffers are pointers and stay abstract (`β`); `none` is `NULL`. `add_reply` takes a
buffer over: its callers hand in a new one each time (`marshall::take_buf`), so a
buffer belongs to one entry and is freed when that entry is erased. The lookup comes
before the trimming, so a call can hand out a buffer that it frees itself.
-/
import Mathlib.Data.Int.Notation
import Mathlib.Data.List.Basic
import Mathlib.Data.List.Induction
import Mathlib.Logic.Function.Basic

set_option autoImplicit false

namespace Yfs.RpcWindow

/-! ## The data model -/

/-- `rpcs::rpcstate_t`. -/
inductive rpcstate_t where
  | NEW
  | INPROGRESS
  | DONE
  | FORGOTTEN
  deriving DecidableEq, Repr

/-- `rpcs::reply_t`: state about an in-progress or completed request. -/
structure reply_t (β : Type*) where
  xid : ℕ
  cb_present : Bool
  buf : Option β
  sz : ℤ
  deriving DecidableEq, Repr

variable {β : Type*}

/-- The constructor `reply_t(xid)`. -/
def reply_t.new (xid : ℕ) : reply_t β := ⟨xid, false, none, 0⟩

/-- The two maps of `rpcs` behind `reply_window_m_` and `mutexForgotten`. A key
that is absent from the `std::map` is `none`. -/
structure rpcs (β : Type*) where
  reply_window_ : ℕ → Option (List (reply_t β))
  theForgottens : ℕ → Option (List ℕ)

/-- A server that has seen no client. -/
def rpcs.empty : rpcs β := ⟨fun _ => none, fun _ => none⟩

/-! ## The two functions -/

/-- The local `enum requestType`; the source never assigns `inpro`. -/
inductive requestType where
  | newReq
  | inpro
  | done
  | forgotten
  deriving DecidableEq, Repr

/-- The lookup half: the first window entry with this `xid` (its buffer and size
are stored to `*b` and `*sz`), else the forgotten list. Neither list is looked at
when the client has no window. -/
def checkduplicate (s : rpcs β) (clt_nonce xid : ℕ) : requestType × Option (Option β × ℤ) :=
  match s.reply_window_ clt_nonce with
  | none => (.newReq, none)
  | some w =>
    match w.find? (fun it => it.xid == xid) with
    -- `inpro` is never assigned: an entry whose handler still runs is `done` too
    | some it => (.done, some (it.buf, it.sz))
    | none =>
      match s.theForgottens clt_nonce with
      | none => (.newReq, none)
      | some f => if f.contains xid then (.forgotten, none) else (.newReq, none)

/-- What the trim loop leaves behind. -/
structure Trimmed (β : Type*) where
  window : List (reply_t β)
  forgotten : Option (List ℕ)
  /-- The erased entries; their buffers have been freed. -/
  freed : List (reply_t β)

/-- The trim loop: entries with `xid <= xid_rep` are erased, their buffers freed, and their
xids put at the end of the forgotten list, which is created on the first of them. -/
def trim (xid_rep : ℕ) : List (reply_t β) → Option (List ℕ) → Trimmed β
  | [], f => ⟨[], f, []⟩
  | it :: rest, f =>
    if it.xid ≤ xid_rep then
      let t := trim xid_rep rest (some (f.getD [] ++ [it.xid]))
      { t with freed := it :: t.freed }
    else
      let t := trim xid_rep rest f
      { t with window := it :: t.window }

/-- What a call returns: the state, and what was stored to `*b` and `*sz`; and the entries
whose buffers it has freed before it returned. -/
structure CheckResult (β : Type*) where
  stat : rpcstate_t
  out : Option (Option β × ℤ)
  freed : List (reply_t β)

/-- The mapping at the end of `checkduplicate_and_update`. -/
def requestType.toState : requestType → rpcstate_t
  | .done => .DONE
  | .inpro => .INPROGRESS
  | .forgotten => .FORGOTTEN
  | .newReq => .NEW

/-- The window the trim loop runs over: with the new entry pushed when the request
was not found. -/
def pushed (s : rpcs β) (clt_nonce xid : ℕ) : List (reply_t β) :=
  match (checkduplicate s clt_nonce xid).1 with
  | .newReq => (s.reply_window_ clt_nonce).getD [] ++ [reply_t.new xid]
  | _ => (s.reply_window_ clt_nonce).getD []

/-- `rpcs::checkduplicate_and_update`. -/
def checkduplicate_and_update (s : rpcs β) (clt_nonce xid xid_rep : ℕ) :
    CheckResult β × rpcs β :=
  let res := checkduplicate s clt_nonce xid
  -- the loop runs over the window with the new entry in it: a request with
  -- `xid <= xid_rep` is forgotten by the very call that brings it
  let t := trim xid_rep (pushed s clt_nonce xid) (s.theForgottens clt_nonce)
  (⟨res.1.toState, res.2, t.freed⟩,
    ⟨Function.update s.reply_window_ clt_nonce (some t.window),
     Function.update s.theForgottens clt_nonce t.forgotten⟩)

/-- The loop of `add_reply`: the first entry with this `xid` gets the buffer.
`cb_present` is left as it is. -/
def set_reply (xid : ℕ) (b : Option β) (sz : ℤ) : List (reply_t β) → List (reply_t β)
  | [] => []
  | it :: rest =>
    if it.xid = xid then { it with buf := b, sz := sz } :: rest
    else it :: set_reply xid b sz rest

/-- `rpcs::add_reply`. `reply_window_[clt_nonce]` creates the key. -/
def add_reply (s : rpcs β) (clt_nonce xid : ℕ) (b : Option β) (sz : ℤ) : rpcs β :=
  { s with reply_window_ := Function.update s.reply_window_ clt_nonce
             (some (set_reply xid b sz ((s.reply_window_ clt_nonce).getD []))) }

/-! ## What the server remembers of one request -/

/-- What the two lists remember of one request. -/
inductive View (β : Type*) where
  | absent
  | present (b : Option β) (sz : ℤ)
  | gone

/-- A request that was absent is in the window from its arrival on. -/
def View.inserted : View β → View β
  | .absent => .present none 0
  | v => v

/-- A request in the window that the client has acknowledged is gone. -/
def View.acked (acked : Prop) [Decidable acked] : View β → View β
  | .present b sz => if acked then .gone else .present b sz
  | v => v

theorem View.inserted_ne_absent (v : View β) : v.inserted ≠ .absent := by
  cases v <;> simp [View.inserted]

theorem View.acked_eq_absent_iff (acked : Prop) [Decidable acked] (v : View β) :
    v.acked acked = .absent ↔ v = .absent := by
  by_cases h : acked <;> cases v <;> simp [View.acked, h]

/-- The view of one pair of lists: the window is asked first. -/
def viewOf (w : List (reply_t β)) (f : List ℕ) (xid : ℕ) : View β :=
  match w.find? (fun it => it.xid == xid) with
  | some it => .present it.buf it.sz
  | none => if f.contains xid then .gone else .absent

/-- The view of request `xid` of client `clt_nonce`. -/
def view (s : rpcs β) (clt_nonce xid : ℕ) : View β :=
  viewOf ((s.reply_window_ clt_nonce).getD []) ((s.theForgottens clt_nonce).getD []) xid

/-- A client with a forgotten list also has a window, so the lookup never skips
the forgotten list. -/
def Wf (s : rpcs β) : Prop :=
  ∀ c, s.reply_window_ c = none → s.theForgottens c = none

theorem wf_empty : Wf (rpcs.empty : rpcs β) := fun _ _ => rfl

variable {s : rpcs β}

/-- On a well-formed server the lookup reads exactly the view. -/
theorem checkduplicate_eq_view (hs : Wf s) (c x : ℕ) :
    checkduplicate s c x = match view s c x with
      | .absent => (.newReq, none)
      | .present b sz => (.done, some (b, sz))
      | .gone => (.forgotten, none) := by
  unfold checkduplicate view viewOf
  cases hw : s.reply_window_ c with
  | none =>
    rw [hs c hw]
    rfl
  | some w =>
    simp only [Option.getD_some]
    cases hf : w.find? (fun it => it.xid == x) with
    | some it => rfl
    | none =>
      cases hg : s.theForgottens c with
      | none => rfl
      | some f =>
        by_cases hx : f.contains x = true
        · simp only [Option.getD_some, hx, if_true]
        · simp only [Option.getD_some, hx]
          rfl

/-! ## The trim loop -/

theorem trim_window (r : ℕ) (w : List (reply_t β)) (f : Option (List ℕ)) :
    (trim r w f).window = w.filter (fun it => decide (r < it.xid)) := by
  induction w generalizing f with
  | nil => rfl
  | cons it rest ih =>
    by_cases hle : it.xid ≤ r
    · rw [trim, if_pos hle, ih, List.filter_cons_of_neg (by simpa using hle)]
    · rw [trim, if_neg hle, List.filter_cons_of_pos (by simpa using hle)]
      exact congrArg _ (ih f)

/-- The loop frees the buffers of the entries it erases, and of no others. -/
theorem trim_freed (r : ℕ) (w : List (reply_t β)) (f : Option (List ℕ)) :
    (trim r w f).freed = w.filter (fun it => decide (it.xid ≤ r)) := by
  induction w generalizing f with
  | nil => rfl
  | cons it rest ih =>
    by_cases hle : it.xid ≤ r
    · rw [trim, if_pos hle, List.filter_cons_of_pos (by simpa using hle)]
      exact congrArg _ (ih _)
    · rw [trim, if_neg hle, List.filter_cons_of_neg (by simpa using hle)]
      exact ih f

theorem mem_trim_forgotten (r : ℕ) (w : List (reply_t β)) (f : Option (List ℕ)) (y : ℕ) :
    y ∈ (trim r w f).forgotten.getD [] ↔ y ∈ f.getD [] ∨ (y ≤ r ∧ ∃ it ∈ w, it.xid = y) := by
  -- the loop hands the forgotten list on, so the induction is for every such list
  induction w generalizing f with
  | nil => simp [trim]
  | cons it rest ih =>
    by_cases hle : it.xid ≤ r
    · rw [trim, if_pos hle, ih]
      rw [Option.getD_some, List.mem_append, List.mem_singleton]
      simp only [List.mem_cons]
      constructor
      · rintro ((h | h) | ⟨hy, it', hm, he⟩)
        · exact Or.inl h
        · exact Or.inr ⟨h ▸ hle, it, Or.inl rfl, h.symm⟩
        · exact Or.inr ⟨hy, it', Or.inr hm, he⟩
      · rintro (h | ⟨hy, it', rfl | hm, he⟩)
        · exact Or.inl (Or.inl h)
        · exact Or.inl (Or.inr he.symm)
        · exact Or.inr ⟨hy, it', hm, he⟩
    · rw [trim, if_neg hle]
      simp only [ih, List.mem_cons]
      constructor
      · rintro (h | ⟨hy, it', hm, he⟩)
        · exact Or.inl h
        · exact Or.inr ⟨hy, it', Or.inr hm, he⟩
      · rintro (h | ⟨hy, it', rfl | hm, he⟩)
        · exact Or.inl h
        · exact absurd (he ▸ hy) hle
        · exact Or.inr ⟨hy, it', hm, he⟩

theorem find_filter_lt (r x : ℕ) (w : List (reply_t β)) :
    (w.filter (fun it => decide (r < it.xid))).find? (fun it => it.xid == x)
      = if x ≤ r then none else w.find? (fun it => it.xid == x) := by
  rw [List.find?_filter]
  by_cases hx : x ≤ r
  · rw [if_pos hx, List.find?_eq_none]
    intro it _ h
    simp only [decide_eq_true_eq, beq_iff_eq] at h
    omega
  · rw [if_neg hx]
    congr 1
    funext it
    by_cases he : it.xid = x
    · have hlt : r < it.xid := by omega
      simp [he, he ▸ hlt]
    · simp [he]

/-- **What trimming does to a view**: an entry up to `xid_rep` is gone, the rest
is as it was. -/
theorem viewOf_trim (r y : ℕ) (w : List (reply_t β)) (f : Option (List ℕ)) :
    viewOf (trim r w f).window ((trim r w f).forgotten.getD []) y
      = (viewOf w (f.getD []) y).acked (y ≤ r) := by
  have hmem := mem_trim_forgotten r w f y
  unfold viewOf
  rw [trim_window, find_filter_lt]
  cases hf : w.find? (fun it => it.xid == y) with
  | some it =>
    have hit : it ∈ w ∧ it.xid = y :=
      ⟨List.mem_of_find?_eq_some hf, by simpa using List.find?_some hf⟩
    by_cases hy : y ≤ r
    -- found and acknowledged: the loop has moved it
    · have hin : y ∈ (trim r w f).forgotten.getD [] := hmem.mpr (Or.inr ⟨hy, it, hit⟩)
      simp [View.acked, hy, hin]
    · simp [View.acked, hy]
  | none =>
    have hnot : ¬ ∃ it ∈ w, it.xid = y := by
      rintro ⟨it, hm, he⟩
      have := List.find?_eq_none.mp hf it hm
      simp [he] at this
    have hiff : y ∈ (trim r w f).forgotten.getD [] ↔ y ∈ f.getD [] :=
      hmem.trans ⟨fun h => h.resolve_right (fun h' => hnot h'.2), Or.inl⟩
    by_cases hyf : y ∈ f.getD []
    · simp [View.acked, hiff, hyf]
    · simp [View.acked, hiff, hyf]

/-! ## The insertion -/

theorem viewOf_push (x y : ℕ) (w : List (reply_t β)) (f : List ℕ)
    (hx : viewOf w f x = .absent) :
    viewOf (w ++ [reply_t.new x]) f y
      = if y = x then .present none 0 else viewOf w f y := by
  unfold viewOf at hx ⊢
  rw [List.find?_append]
  by_cases hy : y = x
  · subst hy
    cases hf : w.find? (fun it => it.xid == y) with
    | some it => rw [hf] at hx; simp at hx
    | none => simp [reply_t.new]
  · cases hf : w.find? (fun it => it.xid == y) with
    | some it => simp [hy]
    | none => simp [hy, reply_t.new, Ne.symm hy]

/-- The view the trim loop starts from. -/
theorem viewOf_pushed (hs : Wf s) (c x y : ℕ) :
    viewOf (pushed s c x) ((s.theForgottens c).getD []) y
      = if y = x then (view s c x).inserted else view s c y := by
  unfold pushed
  rw [checkduplicate_eq_view hs]
  -- a request that was found is not pushed again
  have hkept : ∀ v, view s c x = v → v.inserted = v →
      viewOf ((s.reply_window_ c).getD []) ((s.theForgottens c).getD []) y
        = if y = x then v.inserted else view s c y := by
    intro v hv hins
    by_cases hy : y = x
    · rw [if_pos hy, hins, ← hv, hy]
      rfl
    · rw [if_neg hy]
      rfl
  cases hv : view s c x with
  | absent => exact viewOf_push x y _ _ hv
  | present b sz => exact hkept _ hv rfl
  | gone => exact hkept _ hv rfl

/-! ## The two specs -/

/-- The entries whose buffers the call frees. -/
def freedBy (s : rpcs β) (c x r : ℕ) : List (reply_t β) :=
  (pushed s c x).filter fun it => decide (it.xid ≤ r)

/-- The returned state and output are the view of the request, as it was before the call
trimmed anything. -/
theorem check_result (hs : Wf s) (c x r : ℕ) :
    (checkduplicate_and_update s c x r).1 = match view s c x with
      | .absent => ⟨.NEW, none, freedBy s c x r⟩
      | .present b sz => ⟨.DONE, some (b, sz), freedBy s c x r⟩
      | .gone => ⟨.FORGOTTEN, none, freedBy s c x r⟩ := by
  rw [freedBy, ← trim_freed r _ (s.theForgottens c)]
  unfold checkduplicate_and_update
  rw [checkduplicate_eq_view hs]
  cases view s c x <;> rfl

/-- **The spec of `checkduplicate_and_update` on views.** The request is inserted
when it was absent, then every request of this client up to `xid_rep` that is in
the window is gone; no other client is touched. -/
theorem view_check (hs : Wf s) (c x r c' y : ℕ) :
    view (checkduplicate_and_update s c x r).2 c' y
      = if c' = c then
          (if y = x then (view s c x).inserted else view s c y).acked (y ≤ r)
        else view s c' y := by
  unfold checkduplicate_and_update
  by_cases hc : c' = c
  · subst hc
    rw [if_pos rfl, ← viewOf_pushed hs, ← viewOf_trim]
    simp [view]
  · rw [if_neg hc]
    simp [view, Function.update_of_ne hc]

/-- A request the server has seen is never absent again. -/
theorem view_check_ne_absent (hs : Wf s) (c x r : ℕ) {c' y : ℕ} (hv : view s c' y ≠ .absent) :
    view (checkduplicate_and_update s c x r).2 c' y ≠ .absent := by
  rw [view_check hs]
  by_cases hc : c' = c
  · subst hc
    rw [if_pos rfl, ne_eq, View.acked_eq_absent_iff]
    by_cases hy : y = x
    · rw [if_pos hy]
      exact View.inserted_ne_absent _
    · rwa [if_neg hy]
  · rwa [if_neg hc]

/-- The request that was just checked is not absent. -/
theorem view_check_self (hs : Wf s) (c x r : ℕ) :
    view (checkduplicate_and_update s c x r).2 c x ≠ .absent := by
  rw [view_check hs, if_pos rfl, if_pos rfl, ne_eq, View.acked_eq_absent_iff]
  exact View.inserted_ne_absent _

theorem wf_check (hs : Wf s) (c x r : ℕ) : Wf (checkduplicate_and_update s c x r).2 := by
  intro c' hw
  by_cases hc : c' = c
  · subst hc
    simp [checkduplicate_and_update] at hw
  · simp only [checkduplicate_and_update, Function.update_of_ne hc] at hw ⊢
    exact hs c' hw

theorem find_set_reply (x y : ℕ) (b : Option β) (sz : ℤ) (w : List (reply_t β)) :
    (set_reply x b sz w).find? (fun it => it.xid == y)
      = if y = x then (w.find? (fun it => it.xid == y)).map
          (fun it => { it with buf := b, sz := sz })
        else w.find? (fun it => it.xid == y) := by
  induction w with
  | nil => simp [set_reply]
  | cons it rest ih =>
    by_cases hx : it.xid = x
    · subst hx
      by_cases hy : y = it.xid
      · simp [set_reply, hy]
      · simp [set_reply, hy, Ne.symm hy]
    · by_cases hy : it.xid = y
      · have hyx : y ≠ x := fun h => hx (hy.trans h)
        simp [set_reply, hy, hyx]
      · simp only [set_reply, hx, if_false, List.find?_cons, beq_eq_false_iff_ne.mpr hy, ih]

/-- **The spec of `add_reply` on views**: a request that is in the window gets the
buffer and size, every other view stays. -/
theorem view_add_reply (s : rpcs β) (c x : ℕ) (b : Option β) (sz : ℤ) (c' y : ℕ) :
    view (add_reply s c x b sz) c' y
      = if c' = c ∧ y = x then
          match view s c x with
          | .present _ _ => .present b sz
          | v => v
        else view s c' y := by
  by_cases hc : c' = c
  · subst hc
    simp only [view, add_reply, Function.update_self, Option.getD_some, viewOf, find_set_reply]
    by_cases hy : y = x
    · subst hy
      simp only [if_true, and_self]
      cases ((s.reply_window_ c').getD []).find? (fun it => it.xid == y) with
      | some it => rfl
      | none =>
        by_cases hm : y ∈ (s.theForgottens c').getD []
        · simp [hm]
        · simp [hm]
    · simp [hy]
  · simp [view, add_reply, hc]

theorem view_add_reply_ne_absent (c x : ℕ) (b : Option β) (sz : ℤ) {c' y : ℕ}
    (hv : view s c' y ≠ .absent) : view (add_reply s c x b sz) c' y ≠ .absent := by
  rw [view_add_reply]
  by_cases hcx : c' = c ∧ y = x
  · obtain ⟨rfl, rfl⟩ := hcx
    rw [if_pos ⟨rfl, rfl⟩]
    rcases hvx : view s c' y with _ | ⟨_, _⟩ | _
    · exact absurd hvx hv
    all_goals simp
  · rw [if_neg hcx]
    exact hv

theorem wf_add_reply (hs : Wf s) (c x : ℕ) (b : Option β) (sz : ℤ) : Wf (add_reply s c x b sz) := by
  intro c' hw
  by_cases hc : c' = c
  · subst hc
    simp [add_reply] at hw
  · simp only [add_reply, Function.update_of_ne hc] at hw ⊢
    exact hs c' hw

/-! ## Histories

A history is any sequence of calls of the two functions; the reference `status`
is computed from the calls alone and never looks at the server. -/

/-- One call of one of the two functions. -/
inductive Call (β : Type*) where
  | check (clt_nonce xid xid_rep : ℕ)
  | reply (clt_nonce xid : ℕ) (b : Option β) (sz : ℤ)

/-- The server after one more call. -/
def apply (s : rpcs β) : Call β → rpcs β
  | .check c x r => (checkduplicate_and_update s c x r).2
  | .reply c x b sz => add_reply s c x b sz

/-- The server after a history, from an empty one. -/
def after (h : List (Call β)) : rpcs β := h.foldl apply rpcs.empty

/-- The request has arrived in this history. -/
def Arrived (h : List (Call β)) (c x : ℕ) : Prop := ∃ r, Call.check c x r ∈ h

instance (h : List (Call β)) (c x : ℕ) : Decidable (Arrived h c x) :=
  decidable_of_iff (h.any fun
      | .check c' x' _ => c' == c && x' == x
      | .reply _ _ _ _ => false) <| by
    rw [List.any_eq_true]
    constructor
    · rintro ⟨a, hm, ha⟩
      cases a with
      | check c' x' r =>
        simp only [Bool.and_eq_true, beq_iff_eq] at ha
        exact ⟨r, ha.1 ▸ ha.2 ▸ hm⟩
      | reply c' x' b sz => simp at ha
    · rintro ⟨r, hm⟩
      exact ⟨_, hm, by simp⟩

/-- What a history says about a request that has arrived. -/
inductive Status (β : Type*) where
  | inprogress
  | done (b : Option β) (sz : ℤ)
  | forgotten

/-- A first arrival starts the request. -/
def Status.arrive : Option (Status β) → Option (Status β)
  | none => some .inprogress
  | some st => some st

/-- An acknowledgement of `x` forgets it, whatever it was. -/
def Status.acknowledge : Option (Status β) → Option (Status β)
  | none => none
  | some _ => some .forgotten

/-- A reply completes a request that is not forgotten, and replaces an earlier
reply. -/
def Status.complete (b : Option β) (sz : ℤ) : Option (Status β) → Option (Status β)
  | none => none
  | some .forgotten => some .forgotten
  | some _ => some (.done b sz)

/-- The status of request `(c, x)` after one more call. -/
def Status.next (c x : ℕ) (st : Option (Status β)) : Call β → Option (Status β)
  | .check c' x' r =>
    if c' = c then
      if x ≤ r then Status.acknowledge (if x' = x then Status.arrive st else st)
      else if x' = x then Status.arrive st else st
    else st
  | .reply c' x' b sz => if c' = c ∧ x' = x then Status.complete b sz st else st

/-- The status of request `(c, x)` after a history; `none` when it never arrived. -/
def status (h : List (Call β)) (c x : ℕ) : Option (Status β) :=
  h.foldl (Status.next c x) none

/-- What a server that keeps the contract remembers of a status. A request in
progress and a request completed with the reply `(NULL, 0)` look the same. -/
def Status.toView : Option (Status β) → View β
  | none => .absent
  | some .inprogress => .present none 0
  | some (.done b sz) => .present b sz
  | some .forgotten => .gone

theorem after_append (h : List (Call β)) (a : Call β) :
    after (h ++ [a]) = apply (after h) a := by
  rw [after, List.foldl_append]
  rfl

theorem status_append (h : List (Call β)) (a : Call β) (c x : ℕ) :
    status (h ++ [a]) c x = Status.next c x (status h c x) a := by
  rw [status, List.foldl_append]
  rfl

theorem wf_after (h : List (Call β)) : Wf (after h) := by
  induction h using List.reverseRecOn with
  | nil => exact wf_empty
  | append_singleton h a ih =>
    rw [after_append]
    cases a with
    | check c x r => exact wf_check ih c x r
    | reply c x b sz => exact wf_add_reply ih c x b sz

/-- One call moves the view of a request as it moves its status. -/
theorem view_apply (hs : Wf s) {st : ℕ → ℕ → Option (Status β)}
    (hst : ∀ c x, view s c x = Status.toView (st c x)) (a : Call β) (c x : ℕ) :
    view (apply s a) c x = Status.toView (Status.next c x (st c x) a) := by
  cases a with
  | check c' x' r =>
    rw [apply, view_check hs]
    by_cases hc : c = c'
    · subst hc
      rw [if_pos rfl, Status.next, if_pos rfl]
      -- the view after the insertion, then the acknowledgement on top of it
      have hins : (if x = x' then (view s c x').inserted else view s c x)
          = Status.toView (if x' = x then Status.arrive (st c x) else st c x) := by
        by_cases hx : x = x'
        · subst hx
          rw [if_pos rfl, if_pos rfl, hst c x]
          rcases st c x with _ | _ | _ | _ <;> rfl
        · rw [if_neg hx, if_neg (Ne.symm hx), hst c x]
      rw [hins]
      by_cases hr : x ≤ r
      · rw [if_pos hr]
        rcases (if x' = x then Status.arrive (st c x) else st c x) with _ | _ | _ | _ <;>
          simp [Status.toView, Status.acknowledge, View.acked, hr]
      · rw [if_neg hr]
        rcases (if x' = x then Status.arrive (st c x) else st c x) with _ | _ | _ | _ <;>
          simp [Status.toView, View.acked, hr]
    · rw [if_neg hc, hst c x]
      simp [Status.next, Ne.symm hc]
  | reply c' x' b sz =>
    rw [apply, view_add_reply]
    by_cases hcx : c = c' ∧ x = x'
    · obtain ⟨rfl, rfl⟩ := hcx
      rw [if_pos ⟨rfl, rfl⟩, hst c x]
      rcases st c x with _ | _ | _ | _ <;> simp [Status.toView, Status.next, Status.complete]
    · have hcx' : ¬ (c' = c ∧ x' = x) := fun h => hcx ⟨h.1.symm, h.2.symm⟩
      rw [if_neg hcx, hst c x, Status.next, if_neg hcx']

/-- **The server remembers exactly the status**, after every history. -/
theorem view_after (h : List (Call β)) (c x : ℕ) :
    view (after h) c x = Status.toView (status h c x) := by
  induction h using List.reverseRecOn generalizing c x with
  | nil => rfl
  | append_singleton h a ih =>
    rw [after_append, status_append]
    exact view_apply (wf_after h) ih a c x

/-- A reply is no arrival. -/
theorem arrived_reply (h : List (Call β)) (c x c' x' : ℕ) (b : Option β) (sz : ℤ) :
    Arrived (h ++ [Call.reply c' x' b sz]) c x ↔ Arrived h c x := by
  simp [Arrived]

theorem arrived_check (h : List (Call β)) (c x c' x' r : ℕ) :
    Arrived (h ++ [Call.check c' x' r]) c x ↔ Arrived h c x ∨ (c' = c ∧ x' = x) := by
  simp only [Arrived, List.mem_append, List.mem_singleton, Call.check.injEq]
  constructor
  · rintro ⟨r', hm | ⟨hc, hx, _⟩⟩
    · exact Or.inl ⟨r', hm⟩
    · exact Or.inr ⟨hc.symm, hx.symm⟩
  · rintro (⟨r', hm⟩ | ⟨hc, hx⟩)
    · exact ⟨r', Or.inl hm⟩
    · exact ⟨r, Or.inr ⟨hc.symm, hx.symm, rfl⟩⟩

/-- A request has a status exactly when it has arrived. -/
theorem status_eq_none_iff (h : List (Call β)) (c x : ℕ) :
    status h c x = none ↔ ¬ Arrived h c x := by
  induction h using List.reverseRecOn with
  | nil => simp [status, Arrived]
  | append_singleton h a ih =>
    rw [status_append]
    cases a with
    | reply c' x' b sz =>
      rw [arrived_reply, ← ih, Status.next]
      by_cases hcx : c' = c ∧ x' = x
      · rcases status h c x with _ | _ | _ | _ <;> simp [Status.complete, hcx]
      · rw [if_neg hcx]
    | check c' x' r =>
      rw [arrived_check, not_or, ← ih, Status.next]
      by_cases hc : c' = c
      · by_cases hx : x' = x
        · by_cases hr : x ≤ r
          · rcases status h c x with _ | _ <;>
              simp [hc, hx, hr, Status.arrive, Status.acknowledge]
          · rcases status h c x with _ | _ <;> simp [hc, hx, hr, Status.arrive]
        · by_cases hr : x ≤ r
          · rcases status h c x with _ | _ <;> simp [hc, hx, hr, Status.acknowledge]
          · simp [hc, hx, hr]
      · simp [hc]

/-! ## New exactly at the first arrival -/

/-- The state returned for `(c, x)` after a history, whatever is acknowledged. -/
theorem check_stat_new_iff (h : List (Call β)) (c x r : ℕ) :
    (checkduplicate_and_update (after h) c x r).1.stat = .NEW ↔ ¬ Arrived h c x := by
  rw [← status_eq_none_iff, check_result (wf_after h), view_after]
  rcases status h c x with _ | _ | _ | _ <;> simp [Status.toView]

/-- How many calls of a history returned `NEW` for `(c, x)`. -/
def newCount (c x : ℕ) : rpcs β → List (Call β) → ℕ
  | _, [] => 0
  | s, a :: h =>
    (match a with
      | .check c' x' r =>
        if c' = c ∧ x' = x ∧ (checkduplicate_and_update s c' x' r).1.stat = .NEW then 1 else 0
      | .reply _ _ _ _ => 0) + newCount c x (apply s a) h

theorem newCount_append (c x : ℕ) (s : rpcs β) (h h' : List (Call β)) :
    newCount c x s (h ++ h') = newCount c x s h + newCount c x (h.foldl apply s) h' := by
  induction h generalizing s with
  | nil => simp [newCount]
  | cons a h ih =>
    simp only [List.cons_append, newCount, ih, List.foldl_cons]
    omega

/-- Over a whole history `NEW` is counted once for a request that has arrived, and
never for one that has not. -/
theorem newCount_eq (h : List (Call β)) (c x : ℕ) :
    (Arrived h c x → newCount c x rpcs.empty h = 1)
      ∧ (¬ Arrived h c x → newCount c x rpcs.empty h = 0) := by
  induction h using List.reverseRecOn with
  | nil => simp [Arrived, newCount]
  | append_singleton h a ih =>
    rw [newCount_append]
    cases a with
    | reply c' x' b sz =>
      rw [arrived_reply]
      simpa [newCount] using ih
    | check c' x' r =>
      have hnew := check_stat_new_iff h c' x' r
      rw [after] at hnew
      by_cases hcx : c' = c ∧ x' = x
      · obtain ⟨rfl, rfl⟩ := hcx
        have harr : Arrived (h ++ [Call.check c' x' r]) c' x' := ⟨r, by simp⟩
        refine ⟨fun _ => ?_, fun hn => absurd harr hn⟩
        by_cases ha : Arrived h c' x'
        · simp [newCount, hnew, ha, ih.1 ha]
        · simp [newCount, hnew, ha, ih.2 ha]
      · have harr : Arrived (h ++ [Call.check c' x' r]) c x ↔ Arrived h c x := by
          rw [arrived_check, or_iff_left hcx]
        have hzero : newCount c x (h.foldl apply rpcs.empty) [Call.check c' x' r] = 0 := by
          rw [newCount]
          rw [if_neg (fun hh => hcx ⟨hh.1, hh.2.1⟩)]
          rfl
        rw [harr, hzero]
        exact ih

/-! ## The classification contract

The comment over `checkduplicate_and_update` says what each state means; the
contract below is that comment, with the trimming it describes. -/

/-- The window of the client after the call is the window before it, with the new
entry when the request was new, less the entries up to `xid_rep`; no other client
is touched. -/
def TrimsExactly (h : List (Call β)) (c x r : ℕ) : Prop :=
  let s := after h
  let s' := (checkduplicate_and_update s c x r).2
  s'.reply_window_ c = some ((((s.reply_window_ c).getD []) ++
      (if Arrived h c x then [] else [reply_t.new x])).filter (fun it => decide (r < it.xid)))
    ∧ ∀ c', c' ≠ c → s'.reply_window_ c' = s.reply_window_ c'
        ∧ s'.theForgottens c' = s.theForgottens c'

/-- What the call stored to `*b` is still a buffer when it returns: it is `NULL`, or the call
has not erased the entry it belongs to. -/
def Live (res : CheckResult β) (x : ℕ) (b : Option β) : Prop :=
  b = none ∨ ∀ it ∈ res.freed, it.xid ≠ x

/-- The contract for the call `checkduplicate_and_update(c, x, r)` after a history:
it trims exactly, and a request that has arrived before is classified by its
status, with a buffer that the caller can read. -/
def DuplicateExact (h : List (Call β)) (c x r : ℕ) : Prop :=
  TrimsExactly h c x r ∧
    (Arrived h c x →
      let res := (checkduplicate_and_update (after h) c x r).1
      (res.stat = .INPROGRESS ↔ status h c x = some .inprogress)
        ∧ (∀ b sz, (res.stat = .DONE ∧ res.out = some (b, sz) ∧ Live res x b)
            ↔ status h c x = some (.done b sz))
        ∧ (res.stat = .FORGOTTEN ↔ status h c x = some .forgotten))

theorem pushed_after (h : List (Call β)) (c x : ℕ) :
    pushed (after h) c x = ((after h).reply_window_ c).getD [] ++
      (if Arrived h c x then [] else [reply_t.new x]) := by
  unfold pushed
  rw [checkduplicate_eq_view (wf_after h), view_after]
  have hiff := status_eq_none_iff h c x
  by_cases ha : Arrived h c x
  · have hne : status h c x ≠ none := fun hn => hiff.mp hn ha
    rw [if_pos ha, List.append_nil]
    rcases hst : status h c x with _ | _ | _ | _
    · exact absurd hst hne
    all_goals rfl
  · rw [if_neg ha, hiff.mpr ha]
    rfl

theorem trims_exactly (h : List (Call β)) (c x r : ℕ) : TrimsExactly h c x r := by
  refine ⟨?_, fun c' hc => ?_⟩
  · simp only [checkduplicate_and_update, Function.update_self]
    rw [trim_window, pushed_after]
  · simp only [checkduplicate_and_update, Function.update_of_ne hc, and_self]

/-- A request whose reply is recorded is in the window. -/
theorem entry_of_done {h : List (Call β)} {c x : ℕ} {b : Option β} {sz : ℤ}
    (hst : status h c x = some (.done b sz)) :
    ∃ it ∈ pushed (after h) c x, it.xid = x := by
  have hview : view (after h) c x = .present b sz := by
    rw [view_after, hst]
    rfl
  unfold view viewOf at hview
  rw [pushed_after]
  cases hf : (((after h).reply_window_ c).getD []).find? (fun it => it.xid == x) with
  | some it =>
    refine ⟨it, List.mem_append_left _ (List.mem_of_find?_eq_some hf), ?_⟩
    simpa using List.find?_some hf
  | none =>
    rw [hf] at hview
    simp only at hview
    split at hview <;> cases hview

/-- The buffer of a recorded reply outlives the call unless the call itself acknowledges the
request. -/
theorem live_iff {h : List (Call β)} {c x : ℕ} {b : Option β} {sz : ℤ}
    (hst : status h c x = some (.done b sz)) (r : ℕ) {res : CheckResult β}
    (hfreed : res.freed = freedBy (after h) c x r) :
    Live res x b ↔ b = none ∨ r < x := by
  unfold Live
  rw [hfreed, freedBy]
  refine or_congr Iff.rfl ⟨fun hnot => ?_, fun hlt it hit hx => ?_⟩
  · obtain ⟨it, hit, hx⟩ := entry_of_done hst
    by_contra hge
    refine hnot it (List.mem_filter.mpr ⟨hit, decide_eq_true ?_⟩) hx
    omega
  · have hle : it.xid ≤ r := of_decide_eq_true (List.mem_filter.mp hit).2
    omega

/-- **When the classification is exact.** The call classifies a request as the contract says
but in two cases. A request in progress is found in the window and reported as `DONE` with the
`NULL` reply of a fresh entry, since `inpro` is never assigned and `cb_present` never set. And
a request whose reply is recorded and that the call itself acknowledges is reported as `DONE`
with a buffer that the call has freed, since the lookup comes before the trimming. -/
theorem duplicate_exact_iff (h : List (Call β)) (c x r : ℕ) :
    DuplicateExact h c x r ↔
      status h c x ≠ some .inprogress
        ∧ ∀ b sz, status h c x = some (.done (some b) sz) → r < x := by
  have hres := check_result (wf_after h) c x r
  rw [view_after] at hres
  constructor
  · rintro ⟨-, hex⟩
    have harr : ∀ st, status h c x = some st → Arrived h c x := by
      intro st hst
      by_contra hn
      rw [(status_eq_none_iff h c x).mpr hn] at hst
      cases hst
    refine ⟨fun hst => ?_, fun b sz hst => ?_⟩
    · have hin := (hex (harr _ hst)).1.mpr hst
      rw [hres, hst] at hin
      cases hin
    · obtain ⟨-, -, hlive⟩ := ((hex (harr _ hst)).2.1 (some b) sz).mpr hst
      rw [live_iff hst r (by rw [hres, hst]; rfl)] at hlive
      exact hlive.resolve_left (Option.some_ne_none b)
  · rintro ⟨hne, hacked⟩
    refine ⟨trims_exactly h c x r, fun ha => ?_⟩
    have hsome : status h c x ≠ none := fun hn => (status_eq_none_iff h c x).mp hn ha
    simp only [hres]
    rcases hst : status h c x with _ | _ | ⟨b, sz⟩ | _
    · exact absurd hst hsome
    · exact absurd hst hne
    · refine ⟨by simp [Status.toView], fun b' sz' => ?_, by simp [Status.toView]⟩
      simp only [Status.toView, true_and, Option.some.injEq, Prod.mk.injEq, Status.done.injEq]
      refine ⟨fun hand => hand.1, fun heq => ⟨heq, ?_⟩⟩
      obtain ⟨rfl, rfl⟩ := heq
      rw [live_iff hst r rfl]
      cases b with
      | none => exact .inl rfl
      | some b => exact .inr (hacked b sz hst)
    · simp [Status.toView]

/-- A retransmission that arrives while the handler runs: the second call returns `DONE` with
a `NULL` buffer of size 0 where the contract says `INPROGRESS`. And a retransmission that
acknowledges its own request, after the reply `10` of size 4 was recorded: the call returns
`DONE` with that buffer, and has freed it. -/
theorem duplicate_exact_fails :
    (¬ DuplicateExact ([Call.check 7 1 0] : List (Call ℕ)) 7 1 0
      ∧ (checkduplicate_and_update (after ([Call.check 7 1 0] : List (Call ℕ))) 7 1 0).1
          = ⟨.DONE, some (none, 0), []⟩)
      ∧ ¬ DuplicateExact [Call.check 7 1 0, Call.reply 7 1 (some 10) 4] 7 1 1
      ∧ (checkduplicate_and_update (after [Call.check 7 1 0, Call.reply 7 1 (some 10) 4])
          7 1 1).1 = ⟨.DONE, some (some 10, 4), [⟨1, false, some 10, 4⟩]⟩ := by
  refine ⟨⟨fun hex => ?_, rfl⟩, fun hex => ?_, rfl⟩
  · have harr : Arrived ([Call.check 7 1 0] : List (Call ℕ)) 7 1 := by decide
    have hin := (hex.2 harr).1.mpr rfl
    cases hin
  · have harr : Arrived [Call.check 7 1 0, Call.reply 7 1 (some 10) 4] 7 1 := by decide
    obtain ⟨-, -, hlive⟩ := ((hex.2 harr).2.1 (some 10) 4).mpr rfl
    rcases hlive with hnull | hnot
    · cases hnull
    · exact hnot ⟨1, false, some 10, 4⟩ (List.mem_singleton.mpr rfl) rfl

end Yfs.RpcWindow
