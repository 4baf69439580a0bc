/-
The cache of RPC connections (`handle.cc`).

`handle_mgr` keeps one `hinfo` for each address. A `handle` object holds the `hinfo` that
`get_handle` gave it, or none, until it is destroyed. An entry that is to go while handles
hold it gets its flag `del`, in `delete_handle_wo` or by a bind that fails, and the last
handle to go removes it. It is removed by its address, not by the object the handle holds.

An `hinfo` is an object with a number, and a number is never used again. Memory that was
freed and is used, and a mutex that is destroyed while it is held, set `wild`. The methods
of `handle_mgr` run under `handle_mutex` and are one step each. `safebind` holds the mutex
of the entry while it binds, so it is two steps, and anything can happen between them but
the destruction of the handle it is a call of: every handle of the source is a local
variable of the function that calls `safebind`. The source never copies a handle.

`refcnt` is an `int` in the source and unbounded here: it would take `2^31` handles at one
time for it to overflow.
-/
import Yfs.Refs
import Yfs.Steps
import Yfs.Text
import Mathlib.Logic.Function.Basic

set_option autoImplicit false

namespace Yfs.HandleCache

open Text Refs

/-! ## The manager and its handles -/

structure hinfo where
  /-- The client, when one is bound. -/
  cl : Option ℕ
  refcnt : ℤ
  del : Bool
  m : Str
  /-- Is it held? -/
  cl_mutex : Bool
  deriving DecidableEq, Repr

inductive Pc where
  | idle
  /-- In `safebind`, with the mutex of the entry. -/
  | binding
  | destroyed
  deriving DecidableEq, Repr

structure handle where
  h : Option ℕ
  pc : Pc
  deriving DecidableEq, Repr

structure handle_mgr where
  hmap : Str → Option ℕ
  /-- The `hinfo` objects there are. -/
  info : ℕ → Option hinfo
  /-- The number of the next object. -/
  next : ℕ
  /-- Every handle ever constructed. -/
  handles : List handle
  wild : Bool

def handle_mgr.init : handle_mgr := ⟨fun _ => none, fun _ => none, 0, [], false⟩

namespace handle_mgr

def setInfo (s : handle_mgr) (o : ℕ) (i : hinfo) : handle_mgr :=
  { s with info := Function.update s.info o (some i) }

def setHandle (s : handle_mgr) (k : ℕ) (x : handle) : handle_mgr :=
  { s with handles := s.handles.set k x }

/-- Freed memory is used. -/
def fault (s : handle_mgr) : handle_mgr := { s with wild := true }

/-- A new entry for `m`. -/
def create (s : handle_mgr) (m : Str) : handle_mgr :=
  { s with
    info := Function.update s.info s.next (some ⟨none, 1, false, m, false⟩)
    hmap := Function.update s.hmap m (some s.next)
    next := s.next + 1 }

/-- `hmap.erase(m)` and `delete h`. -/
def erase (s : handle_mgr) (m : Str) (o : ℕ) (i : hinfo) : handle_mgr :=
  { s with
    info := Function.update s.info o none
    hmap := Function.update s.hmap m none
    wild := s.wild || i.cl_mutex }

end handle_mgr

def get_handle (s : handle_mgr) (m : Str) : Option ℕ × handle_mgr :=
  match s.hmap m with
  | none => (some s.next, s.create m)
  | some o =>
    match s.info o with
    | none => (none, s.fault)
    | some i => if i.del then (none, s) else (some o, s.setInfo o { i with refcnt := i.refcnt + 1 })

def delete_handle_wo (s : handle_mgr) (m : Str) : handle_mgr :=
  match s.hmap m with
  | none => s
  | some o =>
    match s.info o with
    | none => s.fault
    | some i => if i.refcnt = 0 then s.erase m o i else s.setInfo o { i with del := true }

/-- The same under the mutex. -/
def delete_handle (s : handle_mgr) (m : Str) : handle_mgr := delete_handle_wo s m

def done_handle (s : handle_mgr) (o : ℕ) : handle_mgr :=
  match s.info o with
  | none => s.fault
  | some i =>
    let s' := s.setInfo o { i with refcnt := i.refcnt - 1 }
    if i.refcnt - 1 = 0 ∧ i.del = true then delete_handle_wo s' i.m else s'

/-! ## Handles -/

/-- The constructor. -/
def handle_new (s : handle_mgr) (m : Str) : handle_mgr :=
  { (get_handle s m).2 with handles := s.handles ++ [⟨(get_handle s m).1, .idle⟩] }

/-- What the first part of `safebind` comes to. -/
inductive Bind where
  | returns (cl : Option ℕ)
  /-- A client is made, and `bind` is called. -/
  | tries
  deriving DecidableEq, Repr

/-- `safebind` up to the call of `bind`; `none`: the mutex is held. -/
def safebind (s : handle_mgr) (k : ℕ) (x : handle) : Option (Bind × handle_mgr) :=
  match x.h with
  | none => some (.returns none, s)
  | some o =>
    match s.info o with
    | none => some (.returns none, s.fault)
    | some i =>
      if i.cl_mutex then none
      else if i.del then some (.returns none, s)
      else if i.cl.isSome then some (.returns i.cl, s)
      else some (.tries,
        (s.setInfo o { i with cl_mutex := true }).setHandle k { x with pc := .binding })

/-- The rest of it; `ret` is the client when `bind` has succeeded. -/
def safebind_end (s : handle_mgr) (k : ℕ) (x : handle) (ret : Option ℕ) : handle_mgr :=
  match x.h with
  | none => s
  | some o =>
    match s.info o with
    | none => s.fault
    | some i =>
      let i' := match ret with
        | none => { i with del := true, cl_mutex := false }
        | some cl => { i with cl := some cl, cl_mutex := false }
      (s.setInfo o i').setHandle k { x with pc := .idle }

/-- The destructor. -/
def handle_destroy (s : handle_mgr) (k : ℕ) (x : handle) : handle_mgr :=
  match x.h with
  | none => s.setHandle k { x with pc := .destroyed }
  | some o => (done_handle s o).setHandle k { x with pc := .destroyed }

/-! ## Runs -/

inductive Act where
  | construct (m : Str)
  | safebind (k : ℕ)
  | bound (k : ℕ) (ret : Option ℕ)
  | destroy (k : ℕ)
  | delete_handle (m : Str)
  deriving DecidableEq, Repr

def step (s : handle_mgr) : Act → Option handle_mgr
  | .construct m => some (handle_new s m)
  | .safebind k =>
    match s.handles[k]? with
    | some ⟨h, .idle⟩ => (safebind s k ⟨h, .idle⟩).map Prod.snd
    | _ => none
  | .bound k ret =>
    match s.handles[k]? with
    | some ⟨h, .binding⟩ => some (safebind_end s k ⟨h, .binding⟩ ret)
    | _ => none
  | .destroy k =>
    match s.handles[k]? with
    | some ⟨h, .idle⟩ => some (handle_destroy s k ⟨h, .idle⟩)
    | _ => none
  | .delete_handle m => some (delete_handle s m)

/-! ## Holders -/

/-- The entry a handle holds. -/
def handle.ref (x : handle) : Option ℕ := if x.pc = .destroyed then none else x.h

/-- The entry whose mutex a handle holds. -/
def handle.lock (x : handle) : Option ℕ := if x.pc = .binding then x.h else none

@[simp] theorem ref_idle (h : Option ℕ) : handle.ref ⟨h, .idle⟩ = h := rfl
@[simp] theorem ref_binding (h : Option ℕ) : handle.ref ⟨h, .binding⟩ = h := rfl
@[simp] theorem ref_destroyed (h : Option ℕ) : handle.ref ⟨h, .destroyed⟩ = none := rfl
@[simp] theorem lock_idle (h : Option ℕ) : handle.lock ⟨h, .idle⟩ = none := rfl
@[simp] theorem lock_binding (h : Option ℕ) : handle.lock ⟨h, .binding⟩ = h := rfl
@[simp] theorem lock_destroyed (h : Option ℕ) : handle.lock ⟨h, .destroyed⟩ = none := rfl

theorem one_lock (o : ℕ) (pc : Pc) :
    one (handle.lock ⟨some o, pc⟩) o = (pc == .binding).toNat := by
  cases pc
  · rfl
  · exact if_pos rfl
  · rfl

/-- How many live handles hold `o`. -/
def holders (s : handle_mgr) (o : ℕ) : ℕ := refs handle.ref s.handles o

def lockers (s : handle_mgr) (o : ℕ) : ℕ := refs handle.lock s.handles o

/-- What holds of an object that is there. -/
structure Sound (s : handle_mgr) (o : ℕ) (i : hinfo) : Prop where
  listed : s.hmap i.m = some o
  below : o < s.next
  refcnt : i.refcnt = holders s o
  /-- An entry that is to go waits for a handle. -/
  doomed : i.del = true → 0 < holders s o
  locked : lockers s o = i.cl_mutex.toNat

/-- What holds of every state that can be reached. -/
structure Inv (s : handle_mgr) : Prop where
  object : ∀ o i, s.info o = some i → Sound s o i
  entry : ∀ m o, s.hmap m = some o → ∃ i, s.info o = some i ∧ i.m = m
  held : ∀ o, 0 < holders s o → ∃ i, s.info o = some i
  tame : s.wild = false

/-! ## What `get_handle` gives -/

section Get

variable {s : handle_mgr} {m : Str} {o : ℕ} {i : hinfo}

theorem get_handle_absent (hm : s.hmap m = none) :
    get_handle s m = (some s.next, s.create m) := by
  rw [get_handle, hm]

theorem get_handle_doomed (hm : s.hmap m = some o) (hi : s.info o = some i) (hd : i.del = true) :
    get_handle s m = (none, s) := by
  simp only [get_handle, hm, hi, hd, if_true]

theorem get_handle_live (hm : s.hmap m = some o) (hi : s.info o = some i) (hd : i.del = false) :
    get_handle s m = (some o, s.setInfo o { i with refcnt := i.refcnt + 1 }) := by
  simp only [get_handle, hm, hi, hd, Bool.false_eq_true, if_false]

end Get

/-! ## What a step can do -/

/-- Two lists of handles that differ at most in who holds `o`. -/
def SameBut (o : ℕ) (l l' : List handle) : Prop :=
  ∀ c, c ≠ o → refs handle.ref l' c = refs handle.ref l c ∧
    refs handle.lock l' c = refs handle.lock l c

/-- The changes that a step makes: to who holds nothing, to one entry and those who hold
it, a new entry with its first handle, or an entry that goes. -/
inductive Change (s : handle_mgr) : handle_mgr → Prop where
  | handles {l : List handle} (hl : ∀ c, SameBut c s.handles l) : Change s { s with handles := l }
  | entry {o : ℕ} {i i' : hinfo} {l : List handle} (hi : s.info o = some i)
      (hl : SameBut o s.handles l) (hm : i'.m = i.m) (hdel : i.del = true → i'.del = true)
      (hcnt : i'.refcnt = refs handle.ref l o) (hpos : i'.del = true → 0 < refs handle.ref l o)
      (hlock : refs handle.lock l o = i'.cl_mutex.toNat) :
      Change s { s.setInfo o i' with handles := l }
  | create {m : Str} (hm : s.hmap m = none) :
      Change s { s.create m with handles := s.handles ++ [⟨some s.next, .idle⟩] }
  | erase {o : ℕ} {i : hinfo} {l : List handle} (hi : s.info o = some i)
      (hl : SameBut o s.handles l) (hcnt : refs handle.ref l o = 0) (hlock : i.cl_mutex = false) :
      Change s { s.erase i.m o i with handles := l }

section Handles

variable {l : List handle} {k o : ℕ} {h : Option ℕ}

/-- A handle that holds nothing does not count. -/
theorem sameBut_append_none (l : List handle) (c : ℕ) : SameBut c l (l ++ [⟨none, .idle⟩]) := by
  intro d _
  rw [refs_append_singleton, refs_append_singleton]
  exact ⟨rfl, rfl⟩

theorem sameBut_append_some (l : List handle) (o : ℕ) : SameBut o l (l ++ [⟨some o, .idle⟩]) := by
  intro d hd
  have hone : one (some o) d = 0 := if_neg fun h => hd (Option.some.inj h).symm
  rw [refs_append_singleton, refs_append_singleton]
  exact ⟨by rw [show handle.ref ⟨some o, .idle⟩ = some o from rfl, hone]; rfl, rfl⟩

/-- A handle of `o` that changes its place in the code matters to `o` only. -/
theorem sameBut_set {pc pc' : Pc} (hk : l[k]? = some ⟨h, pc⟩) (ho : ∀ c, h = some c → c = o) :
    SameBut o l (l.set k ⟨h, pc'⟩) := by
  intro d hd
  have hone : ∀ r : Option ℕ, r = none ∨ r = h → one r d = 0 := by
    rintro r (rfl | rfl)
    · rfl
    · exact if_neg fun h => hd (ho d h)
  have href : ∀ pc, handle.ref ⟨h, pc⟩ = none ∨ handle.ref ⟨h, pc⟩ = h := by
    intro pc
    unfold handle.ref
    split
    · exact .inl rfl
    · exact .inr rfl
  have hlock : ∀ pc, handle.lock ⟨h, pc⟩ = none ∨ handle.lock ⟨h, pc⟩ = h := by
    intro pc
    unfold handle.lock
    split
    · exact .inr rfl
    · exact .inl rfl
  have h1 := refs_set (f := handle.ref) hk ⟨h, pc'⟩ d
  have h2 := refs_set (f := handle.lock) hk ⟨h, pc'⟩ d
  rw [hone _ (href pc), hone _ (href pc')] at h1
  rw [hone _ (hlock pc), hone _ (hlock pc')] at h2
  exact ⟨h1, h2⟩

/-- Only a handle that holds `o` can hold its mutex. -/
theorem lock_le_ref (l : List handle) (o : ℕ) : refs handle.lock l o ≤ refs handle.ref l o := by
  refine List.countP_mono_left ?_
  intro x _ hx
  have hx' : handle.lock x = some o := of_decide_eq_true hx
  unfold handle.lock at hx'
  split at hx'
  · next hpc => exact decide_eq_true (by rw [handle.ref, hpc]; exact hx')
  · cases hx'

end Handles

/-! ## The invariant along a change -/

section Changes

variable {s t : handle_mgr}

theorem inv_init : Inv handle_mgr.init where
  object := by
    intro o i h
    cases h
  entry := by
    intro m o h
    cases h
  held := by
    intro o h
    cases h
  tame := rfl

/-- An object that is not there is held by nobody. -/
theorem Inv.holders_eq_zero (hs : Inv s) {o : ℕ} (h : s.info o = none) : holders s o = 0 := by
  by_contra hne
  obtain ⟨i, hi⟩ := hs.held o (Nat.pos_of_ne_zero hne)
  rw [h] at hi
  cases hi

theorem Inv.info_next (hs : Inv s) : s.info s.next = none := by
  rcases hi : s.info s.next with _ | i
  · rfl
  · exact absurd (hs.object s.next i hi).below (lt_irrefl _)

/-- An object is as sound as before when nothing about it has changed. -/
theorem Sound.congr {o : ℕ} {i : hinfo} (h : Sound s o i) (hmap : t.hmap i.m = s.hmap i.m)
    (hnext : s.next ≤ t.next) (href : holders t o = holders s o)
    (hlock : lockers t o = lockers s o) : Sound t o i where
  listed := hmap.trans h.listed
  below := lt_of_lt_of_le h.below hnext
  refcnt := by rw [href]; exact h.refcnt
  doomed := by rw [href]; exact h.doomed
  locked := by rw [hlock]; exact h.locked

theorem Inv.change_handles (hs : Inv s) {l : List handle} (hl : ∀ c, SameBut c s.handles l) :
    Inv { s with handles := l } := by
  have href : ∀ c, holders { s with handles := l } c = holders s c := fun c =>
    (hl (c + 1) c (by omega)).1
  have hlock : ∀ c, lockers { s with handles := l } c = lockers s c := fun c =>
    (hl (c + 1) c (by omega)).2
  refine ⟨?_, hs.entry, ?_, hs.tame⟩
  · intro o i hi
    exact (hs.object o i hi).congr rfl (le_refl _) (href o) (hlock o)
  · intro o ho
    rw [href] at ho
    exact hs.held o ho

/-- Another object is held as before. -/
theorem Inv.held_sameBut (hs : Inv s) {o c : ℕ} {l : List handle} (hl : SameBut o s.handles l)
    (hco : c ≠ o) (hc : 0 < refs handle.ref l c) : ∃ j, s.info c = some j := by
  rw [(hl c hco).1] at hc
  exact hs.held c hc

/-- One object and those who hold it change; it stays the entry of its address. -/
theorem Inv.change_entry (hs : Inv s) {o : ℕ} {i i' : hinfo} {l : List handle}
    (hi : s.info o = some i) (hl : SameBut o s.handles l) (hm : i'.m = i.m)
    (hcnt : i'.refcnt = refs handle.ref l o) (hpos : i'.del = true → 0 < refs handle.ref l o)
    (hlock : refs handle.lock l o = i'.cl_mutex.toNat) :
    Inv { s.setInfo o i' with handles := l } := by
  have hself : (s.setInfo o i').info o = some i' := Function.update_self ..
  have hother : ∀ c, c ≠ o → (s.setInfo o i').info c = s.info c := fun c hc =>
    Function.update_of_ne hc ..
  have hold := hs.object o i hi
  refine ⟨?_, ?_, ?_, hs.tame⟩
  · intro c j hj
    rcases update_eq_some hj with ⟨rfl, hset⟩ | ⟨hco, hj⟩
    · obtain rfl := Option.some.inj hset
      exact ⟨by rw [hm]; exact hold.listed, hold.below, hcnt, hpos, hlock⟩
    · exact (hs.object c j hj).congr rfl (le_refl _) (hl c hco).1 (hl c hco).2
  · intro m c hc
    obtain ⟨j, hj, hjm⟩ := hs.entry m c hc
    by_cases hco : c = o
    · subst hco
      rw [hi, Option.some.injEq] at hj
      exact ⟨i', hself, by rw [hm, hj, hjm]⟩
    · exact ⟨j, (hother c hco).trans hj, hjm⟩
  · intro c hc
    by_cases hco : c = o
    · exact ⟨i', hco ▸ hself⟩
    · obtain ⟨j, hj⟩ := hs.held_sameBut hl hco hc
      exact ⟨j, (hother c hco).trans hj⟩

/-- The handle that a new object is made for is the only one, and it is not in `safebind`. -/
theorem Inv.refs_next (hs : Inv s) :
    refs handle.ref (s.handles ++ [⟨some s.next, .idle⟩]) s.next = 1
      ∧ refs handle.lock (s.handles ++ [⟨some s.next, .idle⟩]) s.next = 0 := by
  have hzero := hs.holders_eq_zero hs.info_next
  have hle := lock_le_ref s.handles s.next
  rw [holders] at hzero
  rw [hzero] at hle
  have hone : one (handle.ref ⟨some s.next, .idle⟩) s.next = 1 := if_pos rfl
  rw [refs_append_singleton, refs_append_singleton, hone, hzero]
  exact ⟨rfl, Nat.le_zero.mp hle⟩

/-- A new object, with the handle it is made for. -/
theorem Inv.change_create (hs : Inv s) {m : Str} (hm : s.hmap m = none) :
    Inv { s.create m with handles := s.handles ++ [⟨some s.next, .idle⟩] } := by
  have hself : (s.create m).info s.next = some ⟨none, 1, false, m, false⟩ :=
    Function.update_self ..
  have hother : ∀ c, c ≠ s.next → (s.create m).info c = s.info c := fun c hc =>
    Function.update_of_ne hc ..
  have hl := sameBut_append_some s.handles s.next
  obtain ⟨href, hlock⟩ := hs.refs_next
  refine ⟨?_, ?_, ?_, hs.tame⟩
  · intro c j hj
    rcases update_eq_some hj with ⟨rfl, hset⟩ | ⟨hc, hj⟩
    · obtain rfl := Option.some.inj hset
      refine ⟨Function.update_self .., Nat.lt_succ_self _, ?_, ?_, hlock⟩
      · rw [holders, href]
        rfl
      · intro hd
        cases hd
    · have hcold := hs.object c j hj
      refine hcold.congr ?_ (Nat.le_succ _) (hl c hc).1 (hl c hc).2
      -- the address of another object had an entry before
      refine Function.update_of_ne ?_ ..
      intro hjm
      have hlisted := hcold.listed
      rw [hjm, hm] at hlisted
      cases hlisted
  · intro m' c hc
    rcases update_eq_some hc with ⟨rfl, hset⟩ | ⟨-, hc⟩
    · obtain rfl := Option.some.inj hset
      exact ⟨_, hself, rfl⟩
    · obtain ⟨j, hj, hjm⟩ := hs.entry m' c hc
      have hcn : c ≠ s.next := (hs.object c j hj).below.ne
      exact ⟨j, (hother c hcn).trans hj, hjm⟩
  · intro c hc
    by_cases hcn : c = s.next
    · exact ⟨_, hcn ▸ hself⟩
    · obtain ⟨j, hj⟩ := hs.held_sameBut hl hcn hc
      exact ⟨j, (hother c hcn).trans hj⟩

/-- An object that nobody holds any more goes. -/
theorem Inv.change_erase (hs : Inv s) {o : ℕ} {i : hinfo} {l : List handle}
    (hi : s.info o = some i) (hl : SameBut o s.handles l) (hcnt : refs handle.ref l o = 0)
    (hlock : i.cl_mutex = false) : Inv { s.erase i.m o i with handles := l } := by
  have hother : ∀ c, c ≠ o → (s.erase i.m o i).info c = s.info c := fun c hc =>
    Function.update_of_ne hc ..
  refine ⟨?_, ?_, ?_, ?_⟩
  · intro c j hj
    rcases update_eq_some hj with ⟨-, hset⟩ | ⟨hco, hj⟩
    · cases hset
    · have hcold := hs.object c j hj
      refine hcold.congr ?_ (le_refl _) (hl c hco).1 (hl c hco).2
      -- two objects are not the entry of one address
      refine Function.update_of_ne ?_ ..
      intro hjm
      have hlisted := (hs.object o i hi).listed
      rw [← hjm, hcold.listed] at hlisted
      exact hco (Option.some.inj hlisted)
  · intro m c hc
    rcases update_eq_some hc with ⟨-, hset⟩ | ⟨hmi, hc⟩
    · cases hset
    · obtain ⟨j, hj, hjm⟩ := hs.entry m c hc
      have hco : c ≠ o := by
        rintro rfl
        rw [hi, Option.some.injEq] at hj
        exact hmi (by rw [← hjm, hj])
      exact ⟨j, (hother c hco).trans hj, hjm⟩
  · intro c hc
    have hco : c ≠ o := by
      rintro rfl
      rw [holders, hcnt] at hc
      omega
    obtain ⟨j, hj⟩ := hs.held_sameBut hl hco hc
    exact ⟨j, (hother c hco).trans hj⟩
  · have hwild : (s.wild || i.cl_mutex) = false := by rw [hs.tame, hlock]; rfl
    exact hwild

theorem Change.inv (h : Change s t) (hs : Inv s) : Inv t := by
  cases h with
  | handles hl => exact hs.change_handles hl
  | entry hi hl hm _ hcnt hpos hlock => exact hs.change_entry hi hl hm hcnt hpos hlock
  | create hm => exact hs.change_create hm
  | erase hi hl hcnt hlock => exact hs.change_erase hi hl hcnt hlock

/-! ## Every step is a change -/

variable {k o : ℕ} {i : hinfo}

/-- The constructor: a new entry, one more handle of the entry, or a handle of nothing. -/
theorem change_handle_new (hs : Inv s) (m : Str) : Change s (handle_new s m) := by
  unfold handle_new
  rcases hm : s.hmap m with _ | o
  · rw [get_handle_absent hm]
    exact .create hm
  obtain ⟨i, hi, -⟩ := hs.entry m o hm
  have hold := hs.object o i hi
  rcases hdel : i.del with _ | _
  · rw [get_handle_live hm hi hdel]
    have hone : one (handle.ref ⟨some o, .idle⟩) o = 1 := if_pos rfl
    refine .entry hi (sameBut_append_some s.handles o) rfl id ?_ ?_ ?_
    · rw [refs_append_singleton, hone, hold.refcnt]
      rfl
    · intro _
      rw [refs_append_singleton, hone]
      omega
    · rw [refs_append_singleton]
      exact hold.locked
  · rw [get_handle_doomed hm hi hdel]
    exact .handles (sameBut_append_none s.handles)

/-- A step that changes nothing. -/
theorem change_self (s : handle_mgr) : Change s s := .handles fun _ _ _ => ⟨rfl, rfl⟩

/-- A handle of `o` goes into or out of `safebind`: it holds `o` all the same. -/
theorem change_lock (hs : Inv s) {i' : hinfo} {pc pc' : Pc} (hi : s.info o = some i)
    (hk : s.handles[k]? = some ⟨some o, pc⟩) (hpc : pc ≠ .destroyed) (hpc' : pc' ≠ .destroyed)
    (hm : i'.m = i.m) (hdel : i.del = true → i'.del = true) (hcnt : i'.refcnt = i.refcnt)
    (hlock : i.cl_mutex = (pc == .binding)) (hlock' : i'.cl_mutex = (pc' == .binding)) :
    Change s ((s.setInfo o i').setHandle k ⟨some o, pc'⟩) := by
  have hold := hs.object o i hi
  have href := refs_set (f := handle.ref) hk ⟨some o, pc'⟩ o
  have hmutex := refs_set (f := handle.lock) hk ⟨some o, pc'⟩ o
  have hpos := one_le_refs (f := handle.ref) (c := o) (List.mem_of_getElem? hk) (if_neg hpc)
  have hlocked := hold.locked
  rw [hlock, lockers] at hlocked
  rw [handle.ref, handle.ref, if_neg hpc, if_neg hpc', Nat.add_right_cancel_iff] at href
  rw [one_lock, one_lock, hlocked, Nat.add_comm, Nat.add_left_cancel_iff] at hmutex
  have hl : SameBut o s.handles (s.handles.set k ⟨some o, pc'⟩) :=
    sameBut_set hk fun c hc => (Option.some.inj hc).symm
  have hcount : i'.refcnt = refs handle.ref (s.handles.set k ⟨some o, pc'⟩) o := by
    rw [hcnt, hold.refcnt, href, holders]
  rw [← href] at hpos
  rw [← hlock'] at hmutex
  exact .entry hi hl hm hdel hcount (fun _ => hpos) hmutex

/-- The first part of `safebind` takes the mutex, or changes nothing. -/
theorem change_safebind (hs : Inv s) {h : Option ℕ} {r : Bind × handle_mgr}
    (hk : s.handles[k]? = some ⟨h, .idle⟩) (hr : safebind s k ⟨h, .idle⟩ = some r) :
    Change s r.2 := by
  unfold safebind at hr
  rcases h with _ | o
  · obtain rfl := Option.some.inj hr
    exact change_self s
  obtain ⟨i, hi⟩ := hs.held o (one_le_refs (List.mem_of_getElem? hk) rfl)
  simp only [hi] at hr
  rcases hmutex : i.cl_mutex with _ | _
  · rw [hmutex, if_neg Bool.false_ne_true] at hr
    split at hr
    · obtain rfl := Option.some.inj hr
      exact change_self s
    split at hr
    · obtain rfl := Option.some.inj hr
      exact change_self s
    obtain rfl := Option.some.inj hr
    exact change_lock hs hi hk (by decide) (by decide) rfl id rfl hmutex rfl
  · rw [hmutex, if_pos rfl] at hr
    cases hr

/-- The rest of it gives the mutex back, with a client or with the flag set. -/
theorem change_safebind_end (hs : Inv s) {h : Option ℕ} (ret : Option ℕ)
    (hk : s.handles[k]? = some ⟨h, .binding⟩) :
    Change s (safebind_end s k ⟨h, .binding⟩ ret) := by
  unfold safebind_end
  rcases h with _ | o
  · exact change_self s
  obtain ⟨i, hi⟩ := hs.held o (one_le_refs (List.mem_of_getElem? hk) rfl)
  have hpos := one_le_refs (f := handle.lock) (c := o) (List.mem_of_getElem? hk) rfl
  have hmutex : i.cl_mutex = true := by
    rcases hm : i.cl_mutex with _ | _
    · have hlocked := (hs.object o i hi).locked
      rw [hm, lockers, Bool.toNat_false] at hlocked
      omega
    · rfl
  simp only [hi]
  rcases ret with _ | cl
  · exact change_lock hs hi hk (by decide) (by decide) rfl (fun _ => rfl) rfl hmutex rfl
  · exact change_lock hs hi hk (by decide) (by decide) rfl id rfl hmutex rfl

/-- `delete_handle`: the entry goes, or gets its flag. -/
theorem change_delete_handle (hs : Inv s) (m : Str) : Change s (delete_handle s m) := by
  unfold delete_handle delete_handle_wo
  rcases hm : s.hmap m with _ | o
  · exact change_self s
  obtain ⟨i, hi, rfl⟩ := hs.entry m o hm
  have hold := hs.object o i hi
  have hcnt := hold.refcnt
  have hlocked := hold.locked
  have hle := lock_le_ref s.handles o
  simp only [hi]
  split
  · next h0 =>
    have hzero : refs handle.ref s.handles o = 0 := by
      rw [h0] at hcnt
      exact (Int.ofNat.inj hcnt).symm
    have hmutex : i.cl_mutex = false := by
      rw [hzero] at hle
      rw [lockers, Nat.le_zero.mp hle] at hlocked
      exact Bool.toNat_eq_zero.mp hlocked.symm
    exact .erase hi (fun _ _ => ⟨rfl, rfl⟩) hzero hmutex
  · next h0 =>
    have hpos : 0 < refs handle.ref s.handles o := by
      rw [hcnt] at h0
      exact Nat.pos_of_ne_zero fun h => h0 (congrArg Nat.cast h)
    exact .entry hi (fun _ _ => ⟨rfl, rfl⟩) rfl (fun _ => rfl) hcnt (fun _ => hpos) hlocked

/-- The last handle of an entry that is to go takes the entry with it. -/
theorem done_handle_last (hi : s.info o = some i) (hlisted : s.hmap i.m = some o)
    (h : i.refcnt - 1 = 0 ∧ i.del = true) : done_handle s o = s.erase i.m o i := by
  have hinfo : (s.setInfo o { i with refcnt := i.refcnt - 1 }).info o
      = some { i with refcnt := i.refcnt - 1 } := Function.update_self ..
  have hmap : (s.setInfo o { i with refcnt := i.refcnt - 1 }).hmap i.m = some o := hlisted
  simp only [done_handle, hi, if_pos h, delete_handle_wo, hmap, hinfo, if_pos h.1]
  simp only [handle_mgr.erase, handle_mgr.setInfo, Function.update_idem]

theorem done_handle_more (hi : s.info o = some i) (h : ¬ (i.refcnt - 1 = 0 ∧ i.del = true)) :
    done_handle s o = s.setInfo o { i with refcnt := i.refcnt - 1 } := by
  simp only [done_handle, hi, if_neg h]

/-- The destructor: one handle less, and the entry goes with the last one when its flag is
set. -/
theorem change_handle_destroy (hs : Inv s) {h : Option ℕ}
    (hk : s.handles[k]? = some ⟨h, .idle⟩) : Change s (handle_destroy s k ⟨h, .idle⟩) := by
  unfold handle_destroy
  rcases h with _ | o
  · refine .handles fun c => sameBut_set hk ?_
    intro d hd
    cases hd
  obtain ⟨i, hi⟩ := hs.held o (one_le_refs (List.mem_of_getElem? hk) rfl)
  have hold := hs.object o i hi
  have href := refs_set (f := handle.ref) hk ⟨some o, .destroyed⟩ o
  have hmutex := refs_set (f := handle.lock) hk ⟨some o, .destroyed⟩ o
  have hl : SameBut o s.handles (s.handles.set k ⟨some o, .destroyed⟩) :=
    sameBut_set hk fun c hc => (Option.some.inj hc).symm
  have hone : one (some o) o = 1 := if_pos rfl
  rw [ref_idle, ref_destroyed, hone, one_none] at href
  rw [lock_idle, lock_destroyed] at hmutex
  have hcnt : i.refcnt - 1 = refs handle.ref (s.handles.set k ⟨some o, .destroyed⟩) o := by
    have hcount := hold.refcnt
    rw [holders] at hcount
    omega
  have hlocked : refs handle.lock (s.handles.set k ⟨some o, .destroyed⟩) o = i.cl_mutex.toNat := by
    rw [← hold.locked, lockers]
    exact hmutex
  by_cases hlast : i.refcnt - 1 = 0 ∧ i.del = true
  · simp only [done_handle_last hi hold.listed hlast]
    have hzero : refs handle.ref (s.handles.set k ⟨some o, .destroyed⟩) o = 0 := by omega
    have hfree : i.cl_mutex = false := by
      have hle := lock_le_ref (s.handles.set k ⟨some o, .destroyed⟩) o
      rw [hzero, hlocked] at hle
      exact Bool.toNat_eq_zero.mp (Nat.le_zero.mp hle)
    exact .erase hi hl hzero hfree
  · simp only [done_handle_more hi hlast]
    have hpos : i.del = true → 0 < refs handle.ref (s.handles.set k ⟨some o, .destroyed⟩) o := by
      intro hd
      have hne : i.refcnt - 1 ≠ 0 := fun h => hlast ⟨h, hd⟩
      omega
    exact .entry hi hl rfl id hcnt hpos hlocked

/-- **Every step is a change.** -/
theorem step_change (hs : Inv s) {a : Act} (h : step s a = some t) : Change s t := by
  cases a with
  | construct m =>
    obtain rfl := Option.some.inj h
    exact change_handle_new hs m
  | safebind k =>
    simp only [step] at h
    split at h
    · next hk =>
      obtain ⟨r, hr, rfl⟩ := Option.map_eq_some_iff.mp h
      exact change_safebind hs hk hr
    · cases h
  | bound k ret =>
    simp only [step] at h
    split at h
    · next hk =>
      obtain rfl := Option.some.inj h
      exact change_safebind_end hs ret hk
    · cases h
  | destroy k =>
    simp only [step] at h
    split at h
    · next hk =>
      obtain rfl := Option.some.inj h
      exact change_handle_destroy hs hk
    · cases h
  | delete_handle m =>
    obtain rfl := Option.some.inj h
    exact change_delete_handle hs m

/-- The invariant holds after every run. -/
theorem inv_run {acts : List Act} (h : Steps.run step handle_mgr.init acts = some s) : Inv s :=
  Steps.run_inv_all (fun _ _ _ hi h => (step_change hi h).inv hi) inv_init h

end Changes

/-! ## The life of an entry -/

section Life

variable {s t : handle_mgr} {m : Str}

/-- The entry `e` of the address `m` was to go when `n` objects had been made: it has its
flag, and any other entry of the address is newer. -/
structure Doomed (n : ℕ) (m : Str) (e : Option ℕ) (s : handle_mgr) : Prop where
  next : n ≤ s.next
  old : ∀ o, e = some o → o < n
  flag : ∀ o i, e = some o → s.info o = some i → i.m = m ∧ i.del = true
  newer : ∀ o, s.hmap m = some o → e = some o ∨ n ≤ o

/-- No step saves an entry that is to go. -/
theorem Change.doomed {n : ℕ} {e : Option ℕ} (h : Change s t) (hd : Doomed n m e s) :
    Doomed n m e t := by
  cases h with
  | handles hl => exact ⟨hd.next, hd.old, hd.flag, hd.newer⟩
  | @entry o i i' l hi _ hm hdel =>
    refine ⟨hd.next, hd.old, ?_, hd.newer⟩
    intro c j hc hj
    rcases update_eq_some hj with ⟨rfl, hset⟩ | ⟨-, hj⟩
    · obtain rfl := Option.some.inj hset
      obtain ⟨hmi, hdi⟩ := hd.flag c i hc hi
      exact ⟨hm.trans hmi, hdel hdi⟩
    · exact hd.flag c j hc hj
  | @create m' hm' =>
    refine ⟨hd.next.trans (Nat.le_succ _), hd.old, ?_, ?_⟩
    · intro c j hc hj
      rcases update_eq_some hj with ⟨rfl, -⟩ | ⟨-, hj⟩
      · exact absurd (lt_of_lt_of_le (hd.old _ hc) hd.next) (lt_irrefl _)
      · exact hd.flag c j hc hj
    · intro c hc
      rcases update_eq_some hc with ⟨-, hset⟩ | ⟨-, hc⟩
      · obtain rfl := Option.some.inj hset
        exact .inr hd.next
      · exact hd.newer c hc
  | @erase o i l hi =>
    refine ⟨hd.next, hd.old, ?_, ?_⟩
    · intro c j hc hj
      rcases update_eq_some hj with ⟨-, hset⟩ | ⟨-, hj⟩
      · cases hset
      · exact hd.flag c j hc hj
    · intro c hc
      rcases update_eq_some hc with ⟨-, hset⟩ | ⟨-, hc⟩
      · cases hset
      · exact hd.newer c hc

/-- A delete of the address, or a bind for it that fails. -/
def Dooms (s : handle_mgr) (m : Str) : Act → Prop
  | .delete_handle m' => m' = m
  | .bound k none =>
    ∃ o i, s.handles[k]? = some ⟨some o, .binding⟩ ∧ s.info o = some i ∧ i.m = m
  | _ => False

/-- An entry that gets its flag. -/
theorem doomed_setInfo (hs : Inv s) {o : ℕ} {i i' : hinfo} {l : List handle}
    (hi : s.info o = some i) (hm : i'.m = i.m) (hdel : i'.del = true) :
    Doomed s.next i.m (s.hmap i.m) { s.setInfo o i' with handles := l } := by
  have hold := hs.object o i hi
  rw [hold.listed]
  refine ⟨le_refl _, ?_, ?_, fun c hc => .inl (hold.listed.symm.trans hc)⟩
  · intro c hc
    obtain rfl := Option.some.inj hc
    exact hold.below
  · intro c j hc hj
    obtain rfl := Option.some.inj hc
    rcases update_eq_some hj with ⟨-, hset⟩ | ⟨hne, -⟩
    · obtain rfl := Option.some.inj hset
      exact ⟨hm, hdel⟩
    · exact absurd rfl hne

theorem doomed_delete_handle (hs : Inv s) (m : Str) :
    Doomed s.next m (s.hmap m) (delete_handle s m) := by
  unfold delete_handle delete_handle_wo
  rcases hm : s.hmap m with _ | o
  · refine ⟨le_refl _, ?_, ?_, ?_⟩
    · intro o h
      cases h
    · intro o i h
      cases h
    · intro o h
      rw [hm] at h
      cases h
  obtain ⟨i, hi, rfl⟩ := hs.entry m o hm
  simp only [hi]
  split
  · refine ⟨le_refl _, ?_, ?_, ?_⟩
    · intro c hc
      obtain rfl := Option.some.inj hc
      exact (hs.object o i hi).below
    · intro c j hc hj
      obtain rfl := Option.some.inj hc
      rcases update_eq_some hj with ⟨-, hset⟩ | ⟨hne, -⟩
      · cases hset
      · exact absurd rfl hne
    · intro c hc
      rcases update_eq_some hc with ⟨-, hset⟩ | ⟨hne, -⟩
      · cases hset
      · exact absurd rfl hne
  · rw [← hm]
    exact doomed_setInfo hs hi rfl rfl

theorem doomed_bind_failure (hs : Inv s) {k o : ℕ} {i : hinfo} (hi : s.info o = some i) :
    Doomed s.next i.m (s.hmap i.m) (safebind_end s k ⟨some o, .binding⟩ none) := by
  simp only [safebind_end, hi]
  exact doomed_setInfo hs hi rfl rfl

theorem Dooms.doomed (hs : Inv s) {a : Act} (hd : Dooms s m a) (h : step s a = some t) :
    Doomed s.next m (s.hmap m) t := by
  cases a with
  | delete_handle m' =>
    obtain rfl : m' = m := hd
    obtain rfl := Option.some.inj h
    exact doomed_delete_handle hs m'
  | bound k ret =>
    cases ret with
    | none =>
      obtain ⟨o, i, hk, hi, rfl⟩ := hd
      simp only [step, hk] at h
      obtain rfl := Option.some.inj h
      exact doomed_bind_failure hs hi
    | some cl => exact hd.elim
  | construct m' => exact hd.elim
  | safebind k => exact hd.elim
  | destroy k => exact hd.elim

/-- What `get_handle` gives while an entry that is to go is held, and after. -/
theorem Doomed.get_handle {n : ℕ} {e : Option ℕ} (hs : Inv s) (hd : Doomed n m e s) :
    (∀ o, e = some o → 0 < holders s o → get_handle s m = (none, s))
      ∧ ((∀ o, e = some o → holders s o = 0) →
        get_handle s m = (some s.next, s.create m) ∨ ∃ o, s.hmap m = some o ∧ n ≤ o) := by
  refine ⟨?_, ?_⟩
  · intro o he ho
    obtain ⟨i, hi⟩ := hs.held o ho
    obtain ⟨rfl, hdel⟩ := hd.flag o i he hi
    exact get_handle_doomed (hs.object o i hi).listed hi hdel
  · intro hgone
    rcases hm : s.hmap m with _ | o
    · exact .inl (get_handle_absent hm)
    · refine .inr ⟨o, rfl, ?_⟩
      -- the old entry would still be held
      rcases hd.newer o hm with he | hn
      · obtain ⟨i, hi, -⟩ := hs.entry m o hm
        have hpos := (hs.object o i hi).doomed (hd.flag o i he hi).2
        have hzero := hgone o he
        omega
      · exact hn

/-- **The life of an entry.** In every state that can be reached each count is the number of
live handles that hold the object, an object that a handle holds is the entry of its
address, no entry that is to go has a count of 0, and no freed object was used. After a bind
for an address that fails, or a delete of it, `get_handle` gives nothing while a handle
holds the entry that was there, and once they are all gone it makes a fresh entry, unless
the entry there is has been made since. -/
theorem handle_life_cycle {acts : List Act}
    (hrun : Steps.run step handle_mgr.init acts = some s) :
    (∀ o i, s.info o = some i → i.refcnt = holders s o)
      ∧ (∀ x ∈ s.handles, ∀ o, x.ref = some o → ∃ i, s.info o = some i ∧ s.hmap i.m = some o)
      ∧ (∀ m o i, s.hmap m = some o → s.info o = some i → i.del = true → i.refcnt ≠ 0)
      ∧ s.wild = false
      ∧ ∀ m a s₁ later s₂, Dooms s m a → step s a = some s₁ →
        Steps.run step s₁ later = some s₂ →
          (∀ o, s.hmap m = some o → 0 < holders s₂ o → get_handle s₂ m = (none, s₂))
          ∧ ((∀ o, s.hmap m = some o → holders s₂ o = 0) →
            get_handle s₂ m = (some s₂.next, s₂.create m)
              ∨ ∃ o, s₂.hmap m = some o ∧ s.next ≤ o) := by
  have hs := inv_run hrun
  refine ⟨fun o i hi => (hs.object o i hi).refcnt, ?_, ?_, hs.tame, ?_⟩
  · intro x hx o ho
    obtain ⟨i, hi⟩ := hs.held o (one_le_refs hx ho)
    exact ⟨i, hi, (hs.object o i hi).listed⟩
  · intro m o i _ hi hdel h0
    have hold := hs.object o i hi
    have hpos := hold.doomed hdel
    have hcnt := hold.refcnt
    omega
  · intro m a s₁ later s₂ hdooms hstep hlater
    have hstart : Inv s₁ ∧ Doomed s.next m (s.hmap m) s₁ :=
      ⟨(step_change hs hstep).inv hs, hdooms.doomed hs hstep⟩
    have hend : Inv s₂ ∧ Doomed s.next m (s.hmap m) s₂ := by
      refine Steps.run_inv_all (P := fun t => Inv t ∧ Doomed s.next m (s.hmap m) t) ?_ hstart hlater
      rintro t a t' ⟨hi, hd⟩ ht
      exact ⟨(step_change hi ht).inv hi, (step_change hi ht).doomed hd⟩
    exact hend.2.get_handle hend.1

/-- Two handles of one address, and a bind that fails: while the second is there a third
handle gets nothing, and when both are gone the next one gets a new object. -/
theorem handle_life_cycle_bindFailure :
    ∃ s s₁ s₂ s₃,
      Steps.run step handle_mgr.init [.construct ['a'], .construct ['a'], .safebind 0] = some s
        ∧ step s (.bound 0 none) = some s₁
        ∧ Steps.run step s₁ [.construct ['a'], .destroy 0] = some s₂
        ∧ Steps.run step s₁ [.destroy 0, .destroy 1] = some s₃
        ∧ get_handle s₂ ['a'] = (none, s₂) ∧ get_handle s₃ ['a'] = (some 1, s₃.create ['a']) := by
  have heval : ((Steps.run step handle_mgr.init
      [.construct ['a'], .construct ['a'], .safebind 0]).bind fun s =>
        (step s (.bound 0 none)).bind fun s₁ =>
        (Steps.run step s₁ [.construct ['a'], .destroy 0]).bind fun s₂ =>
        (Steps.run step s₁ [.destroy 0, .destroy 1]).map fun s₃ =>
          (s.handles[0]?, s.info 0, s.hmap ['a'], holders s₂ 0, holders s₃ 0,
            s₃.hmap ['a'], s₃.next))
      = some (some ⟨some 0, .binding⟩, some ⟨none, 2, false, ['a'], true⟩, some 0, 1, 0, none, 1) :=
    rfl
  obtain ⟨s, hs, h⟩ := Option.bind_eq_some_iff.mp heval
  obtain ⟨s₁, hs₁, h⟩ := Option.bind_eq_some_iff.mp h
  obtain ⟨s₂, hs₂, h⟩ := Option.bind_eq_some_iff.mp h
  obtain ⟨s₃, hs₃, h⟩ := Option.map_eq_some_iff.mp h
  simp only [Prod.mk.injEq] at h
  obtain ⟨hk, hi, hm, hheld, hgone, hm₃, hnext⟩ := h
  have hlife := (handle_life_cycle hs).2.2.2.2 ['a'] (.bound 0 none) s₁
  have hdooms : Dooms s ['a'] (.bound 0 none) := ⟨0, _, hk, hi, rfl⟩
  have h₂ := hlife _ s₂ hdooms hs₁ hs₂
  have h₃ := hlife _ s₃ hdooms hs₁ hs₃
  refine ⟨s, s₁, s₂, s₃, hs, hs₁, hs₂, hs₃, h₂.1 0 hm (by omega), ?_⟩
  have hnone : ∀ o, s.hmap ['a'] = some o → holders s₃ o = 0 := by
    intro o ho
    rw [hm, Option.some.injEq] at ho
    exact ho ▸ hgone
  rcases h₃.2 hnone with hfresh | ⟨o, ho, -⟩
  · rw [hfresh, hnext]
  · rw [hm₃] at ho
    cases ho

end Life

end Yfs.HandleCache
