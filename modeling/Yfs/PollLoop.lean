/-
The poll manager (`rpc/pollmgr.cc`): one thread that waits for descriptors and calls
back, and the threads that add and remove callbacks meanwhile.

The poll thread reads `callbacks_` without the mutex, so the calls of the other threads
are cut where it can see the difference: `add_callback` watches the descriptor first and
stores the callback later. `block_remove_fd` waits, once, for the poll thread to come
round; it is the promise of that function that no callback of the descriptor is made
after it has returned.

The callers are those of `connection.cc`: `del_callback` is called by a callback, in the
poll thread, and nobody adds a callback for a descriptor while another thread is removing
it, because the connection is marked dead before. What the kernel reports as ready is
part of the step. Whether a call of `write` to the pipe blocks is left out.
-/
import Yfs.AioMgr

set_option autoImplicit false

namespace Yfs.PollLoop

open Yfs.AioMgr

/-! ## The poll manager and its threads -/

/-- Where the poll thread is in `wait_loop`. -/
inductive Loop where
  /-- At the head of the loop, before it takes the mutex. -/
  | top
  /-- Before `wait_ready` copies the sets. -/
  | polling
  /-- In `select`, with the copies. -/
  | selecting (trfds twfds : ℕ → Bool) (high : ℕ)
  /-- The descriptors whose callbacks are still to be made. -/
  | calling (readable writable : List ℕ)
  /-- `callbacks_[fd]` was not null. -/
  | tested (write : Bool) (fd : ℕ) (readable writable : List ℕ)
  /-- In the callback. -/
  | inside (write : Bool) (fd ch : ℕ) (readable writable : List ℕ)
  /-- The callback was null when it was called. -/
  | crashed

/-- Where another thread is. -/
inductive User where
  | idle
  /-- In `add_callback`, which has watched the descriptor; the thread has the mutex. -/
  | adding (fd ch : ℕ)
  /-- In `block_remove_fd`, waiting. -/
  | waiting (fd : ℕ)
  /-- In `block_remove_fd`, woken. -/
  | woken (fd : ℕ)
  deriving DecidableEq, Repr

structure PollMgr where
  callbacks_ : ℕ → Option ℕ
  pending_change_ : Bool
  aio_ : SelectAio
  loop : Loop
  users : List User
  /-- A `VERIFY` has failed. -/
  aborted : Bool

def PollMgr.new (pipefd_ users : ℕ) : PollMgr :=
  ⟨fun _ => none, false, .new pipefd_, .top, List.replicate users .idle, false⟩

def User.isAdding : User → Bool
  | .adding _ _ => true
  | _ => false

/-- Nobody has the mutex. -/
def PollMgr.free (p : PollMgr) : Bool := p.users.all fun u => !u.isAdding

/-- `pthread_cond_broadcast(&changedone_c_)`. -/
def User.rouse : User → User
  | .waiting fd => .woken fd
  | u => u

def has_callback (p : PollMgr) (fd : ℕ) (flag : poll_flag) (c : ℕ) : Bool :=
  p.callbacks_ fd = some c && is_watched p.aio_ fd flag

/-- What `wait_ready` makes of the descriptors that `select` has left in the sets. -/
def wait_ready (a : SelectAio) (high : ℕ) (trfds twfds : ℕ → Bool) : SelectAio × Loop :=
  let a' := if a.pipefd_ ≤ high ∧ trfds a.pipefd_ then { a with piped := a.piped - 1 } else a
  let r := readable a.pipefd_ high trfds
  let w := writable a.pipefd_ high trfds twfds
  (a', if r = [] ∧ w = [] then .top else .calling r w)

/-- The next callback of the two loops over the descriptors. -/
def nextCallback (p : PollMgr) : List ℕ → List ℕ → Loop
  | fd :: r, w => if (p.callbacks_ fd).isSome then .tested false fd r w else .calling r w
  | [], fd :: w => if (p.callbacks_ fd).isSome then .tested true fd [] w else .calling [] w
  | [], [] => .top

inductive Act where
  /-- Thread `t` calls `add_callback`. -/
  | add (t fd : ℕ) (flag : poll_flag) (ch : ℕ)
  /-- It stores the callback. -/
  | store (t : ℕ)
  /-- Thread `t` calls `block_remove_fd`. -/
  | remove (t fd : ℕ)
  /-- `block_remove_fd` goes on and returns. -/
  | resume (t : ℕ)
  | spurious (t : ℕ)
  /-- A callback calls `del_callback`. -/
  | del (fd : ℕ) (flag : poll_flag)
  /-- The poll thread goes on. -/
  | go
  /-- `select` returns: what is ready for reading and for writing. -/
  | ready (r w : ℕ → Bool)
  /-- `select` is interrupted. -/
  | eintr

/-- One step. -/
def step (p : PollMgr) (a : Act) : Option PollMgr :=
  if p.aborted then none
  else match a with
  | .add t fd flag ch =>
    if p.free ∧ p.users[t]? = some .idle then
      if fd < MAX_POLL_FDS then
        some { p with aio_ := watch_fd p.aio_ fd flag, users := p.users.set t (.adding fd ch) }
      else some { p with aborted := true }
    else none
  | .store t =>
    match p.users[t]? with
    | some (.adding fd ch) =>
      if p.callbacks_ fd = none ∨ p.callbacks_ fd = some ch then
        some { p with
          callbacks_ := Function.update p.callbacks_ fd (some ch)
          users := p.users.set t .idle }
      else some { p with aborted := true }
    | _ => none
  | .remove t fd =>
    if p.free ∧ p.users[t]? = some .idle then
      (unwatch_fd p.aio_ fd .CB_RDWR).map fun r => { p with
        aio_ := r.1
        pending_change_ := true
        users := p.users.set t (.waiting fd) }
    else none
  | .resume t =>
    match p.users[t]? with
    | some (.woken fd) =>
      if p.free then
        some { p with
          callbacks_ := Function.update p.callbacks_ fd none
          users := p.users.set t .idle }
      else none
    | _ => none
  | .spurious t =>
    match p.users[t]? with
    | some (.waiting fd) => some { p with users := p.users.set t (.woken fd) }
    | _ => none
  | .del fd flag =>
    match p.loop with
    | .inside _ _ _ _ _ =>
      if p.free then
        (unwatch_fd p.aio_ fd flag).map fun r => { p with
          aio_ := r.1
          callbacks_ := if r.2 then Function.update p.callbacks_ fd none else p.callbacks_ }
      else none
    | _ => none
  | .go =>
    match p.loop with
    | .top =>
      if p.free then
        some { p with
          pending_change_ := false
          users := if p.pending_change_ then p.users.map User.rouse else p.users
          loop := .polling }
      else none
    | .polling => some { p with loop := .selecting p.aio_.rfds_ p.aio_.wfds_ p.aio_.highfds_ }
    | .calling r w => some { p with loop := nextCallback p r w }
    | .tested write fd r w =>
      match p.callbacks_ fd with
      | some ch => some { p with loop := .inside write fd ch r w }
      | none => some { p with loop := .crashed }
    | .inside _ _ _ r w => some { p with loop := .calling r w }
    | _ => none
  | .ready r w =>
    match p.loop with
    | .selecting tr tw high =>
      -- `select` returns when something is ready, and the pipe is when it holds a byte
      if (r p.aio_.pipefd_ = true ↔ 0 < p.aio_.piped)
          ∧ (List.range (high + 1)).any (fun fd => select (high + 1) r tr fd
            || select (high + 1) w tw fd) then
        let res := wait_ready p.aio_ high (select (high + 1) r tr) (select (high + 1) w tw)
        some { p with aio_ := res.1, loop := res.2 }
      else none
    | _ => none
  | .eintr =>
    match p.loop with
    | .selecting _ _ _ => some { p with loop := .top }
    | _ => none

/-- What a step does, with one case for each way to go on. -/
inductive Moves (p : PollMgr) : Act → PollMgr → Prop where
  | out_of_range (t fd : ℕ) (flag : poll_flag) (ch : ℕ) :
      Moves p (.add t fd flag ch) { p with aborted := true }
  | in_use (t : ℕ) : Moves p (.store t) { p with aborted := true }
  | add (t fd : ℕ) (flag : poll_flag) (ch : ℕ) (free : p.free = true)
      (idle : p.users[t]? = some .idle) (lt : fd < MAX_POLL_FDS) :
      Moves p (.add t fd flag ch)
        { p with aio_ := watch_fd p.aio_ fd flag, users := p.users.set t (.adding fd ch) }
  | store (t fd ch : ℕ) (user : p.users[t]? = some (.adding fd ch)) :
      Moves p (.store t) { p with
        callbacks_ := Function.update p.callbacks_ fd (some ch), users := p.users.set t .idle }
  | remove (t fd : ℕ) (r : SelectAio × Bool) (free : p.free = true)
      (idle : p.users[t]? = some .idle) (unwatch : unwatch_fd p.aio_ fd .CB_RDWR = some r) :
      Moves p (.remove t fd) { p with
        aio_ := r.1, pending_change_ := true, users := p.users.set t (.waiting fd) }
  | resume (t fd : ℕ) (user : p.users[t]? = some (.woken fd)) (free : p.free = true) :
      Moves p (.resume t) { p with
        callbacks_ := Function.update p.callbacks_ fd none, users := p.users.set t .idle }
  | spurious (t fd : ℕ) (user : p.users[t]? = some (.waiting fd)) :
      Moves p (.spurious t) { p with users := p.users.set t (.woken fd) }
  | del (fd : ℕ) (flag : poll_flag) (r : SelectAio × Bool) (wr : Bool) (fd' ch : ℕ)
      (rs ws : List ℕ) (loop : p.loop = .inside wr fd' ch rs ws)
      (unwatch : unwatch_fd p.aio_ fd flag = some r) :
      Moves p (.del fd flag) { p with
        aio_ := r.1
        callbacks_ := if r.2 then Function.update p.callbacks_ fd none else p.callbacks_ }
  | round (loop : p.loop = .top) (free : p.free = true) :
      Moves p .go { p with
        pending_change_ := false
        users := if p.pending_change_ then p.users.map User.rouse else p.users
        loop := .polling }
  | copy (loop : p.loop = .polling) :
      Moves p .go { p with loop := .selecting p.aio_.rfds_ p.aio_.wfds_ p.aio_.highfds_ }
  | test (rs ws : List ℕ) (loop : p.loop = .calling rs ws) :
      Moves p .go { p with loop := nextCallback p rs ws }
  | call (wr : Bool) (fd ch : ℕ) (rs ws : List ℕ) (loop : p.loop = .tested wr fd rs ws)
      (callback : p.callbacks_ fd = some ch) :
      Moves p .go { p with loop := .inside wr fd ch rs ws }
  | crash (wr : Bool) (fd : ℕ) (rs ws : List ℕ) (loop : p.loop = .tested wr fd rs ws)
      (callback : p.callbacks_ fd = none) : Moves p .go { p with loop := .crashed }
  | back (wr : Bool) (fd ch : ℕ) (rs ws : List ℕ) (loop : p.loop = .inside wr fd ch rs ws) :
      Moves p .go { p with loop := .calling rs ws }
  | ready (r w tr tw : ℕ → Bool) (high : ℕ) (loop : p.loop = .selecting tr tw high)
      (pipe : r p.aio_.pipefd_ = true ↔ 0 < p.aio_.piped) :
      Moves p (.ready r w) { p with
        aio_ := (wait_ready p.aio_ high (select (high + 1) r tr) (select (high + 1) w tw)).1
        loop := (wait_ready p.aio_ high (select (high + 1) r tr) (select (high + 1) w tw)).2 }
  | eintr (tr tw : ℕ → Bool) (high : ℕ) (loop : p.loop = .selecting tr tw high) :
      Moves p .eintr { p with loop := .top }

variable {p p' : PollMgr}

/-- Every step of the poll manager is one of the moves. -/
theorem moves_of_step {a : Act} (h : step p a = some p') : Moves p a p' := by
  unfold step at h
  split at h
  · cases h
  cases a with
  | add t fd flag ch =>
    dsimp only at h
    split_ifs at h with hc hfd
    · obtain rfl := Option.some.inj h
      exact .add t fd flag ch hc.1 hc.2 hfd
    · obtain rfl := Option.some.inj h
      exact .out_of_range t fd flag ch
  | store t =>
    dsimp only at h
    split at h
    · next fd ch hu =>
      split_ifs at h
      · obtain rfl := Option.some.inj h
        exact .store t fd ch hu
      · obtain rfl := Option.some.inj h
        exact .in_use t
    · cases h
  | remove t fd =>
    dsimp only at h
    split_ifs at h with hc
    obtain ⟨r, hr, rfl⟩ := Option.map_eq_some_iff.mp h
    exact .remove t fd r hc.1 hc.2 hr
  | resume t =>
    dsimp only at h
    split at h
    · next fd hu =>
      split_ifs at h with hfree
      obtain rfl := Option.some.inj h
      exact .resume t fd hu hfree
    · cases h
  | spurious t =>
    dsimp only at h
    split at h
    · next fd hu =>
      obtain rfl := Option.some.inj h
      exact .spurious t fd hu
    · cases h
  | del fd flag =>
    dsimp only at h
    split at h
    · next wr fd' ch rs ws hl =>
      split_ifs at h
      obtain ⟨r, hr, rfl⟩ := Option.map_eq_some_iff.mp h
      exact .del fd flag r wr fd' ch rs ws hl hr
    · cases h
  | go =>
    dsimp only at h
    split at h
    · next hl =>
      split at h
      · next hfree =>
        obtain rfl := Option.some.inj h
        exact .round hl hfree
      · cases h
    · next hl =>
      obtain rfl := Option.some.inj h
      exact .copy hl
    · next rs ws hl =>
      obtain rfl := Option.some.inj h
      exact .test rs ws hl
    · next wr fd rs ws hl =>
      split at h
      · next ch hcb =>
        obtain rfl := Option.some.inj h
        exact .call wr fd ch rs ws hl hcb
      · next hcb =>
        obtain rfl := Option.some.inj h
        exact .crash wr fd rs ws hl hcb
    · next wr fd ch rs ws hl =>
      obtain rfl := Option.some.inj h
      exact .back wr fd ch rs ws hl
    · cases h
  | ready r w =>
    dsimp only at h
    split at h
    · next tr tw high hl =>
      split at h
      · next hc =>
        obtain rfl := Option.some.inj h
        exact .ready r w tr tw high hl hc.1
      · cases h
    · cases h
  | eintr =>
    dsimp only at h
    split at h
    · next tr tw high hl =>
      obtain rfl := Option.some.inj h
      exact .eintr tr tw high hl
    · cases h

/-! ## A descriptor the poll thread does not know -/

/-- The poll thread waits for the descriptor, or has a callback for it to make. -/
def Loop.Concerns (fd : ℕ) : Loop → Prop
  | .selecting tr tw _ => tr fd = true ∨ tw fd = true
  | .calling r w => fd ∈ r ∨ fd ∈ w
  | .tested _ fd' r w => fd = fd' ∨ fd ∈ r ∨ fd ∈ w
  | .inside _ fd' _ r w => fd = fd' ∨ fd ∈ r ∨ fd ∈ w
  | _ => False

/-- Nobody waits for the descriptor, and no callback for it is left to be made. -/
structure Silent (p : PollMgr) (fd : ℕ) : Prop where
  unwatched : ¬ Watched p.aio_ fd
  loop : ¬ p.loop.Concerns fd

/-- The next callback is for a descriptor of the two lists. -/
theorem nextCallback_concerns {rs ws : List ℕ} {fd : ℕ}
    (h : (nextCallback p rs ws).Concerns fd) : fd ∈ rs ∨ fd ∈ ws := by
  cases rs with
  | cons fd' rs =>
    simp only [nextCallback] at h
    split_ifs at h
    · rcases h with rfl | h | h
      · exact .inl List.mem_cons_self
      · exact .inl (List.mem_cons_of_mem _ h)
      · exact .inr h
    · exact h.imp (List.mem_cons_of_mem _) id
  | nil =>
    cases ws with
    | cons fd' ws =>
      simp only [nextCallback] at h
      split_ifs at h
      · rcases h with rfl | h | h
        · exact .inr List.mem_cons_self
        · exact .inl h
        · exact .inr (List.mem_cons_of_mem _ h)
      · exact h.imp id (List.mem_cons_of_mem _)
    | nil => exact h.elim

theorem wait_ready_concerns {a : SelectAio} {high fd : ℕ} {tr tw : ℕ → Bool}
    (h : (wait_ready a high tr tw).2.Concerns fd) : tr fd = true ∨ tw fd = true := by
  simp only [wait_ready] at h
  split_ifs at h
  · exact h.elim
  · refine h.imp (fun hr => ?_) fun hw => ?_
    · exact (Bool.and_eq_true_iff.mp (List.mem_filter.mp hr).2).2
    · exact (Bool.and_eq_true_iff.mp (List.mem_filter.mp hw).2).2

/-- `wait_ready` reads the pipe and leaves the sets alone. -/
theorem wait_ready_aio (a : SelectAio) (high : ℕ) (tr tw : ℕ → Bool) :
    (wait_ready a high tr tw).1.rfds_ = a.rfds_ ∧ (wait_ready a high tr tw).1.wfds_ = a.wfds_
      ∧ (wait_ready a high tr tw).1.highfds_ = a.highfds_
      ∧ (wait_ready a high tr tw).1.pipefd_ = a.pipefd_ := by
  simp only [wait_ready]
  split_ifs <;> exact ⟨rfl, rfl, rfl, rfl⟩

def Act.adds (fd : ℕ) : Act → Bool
  | .add _ fd' _ _ => fd' = fd
  | _ => false

/-- **A silent descriptor stays silent** until a callback is added for it. -/
theorem Silent.step {a : Act} {fd : ℕ} (h : Silent p fd)
    (hadds : a.adds fd = false) (hmoves : Moves p a p') : Silent p' fd := by
  obtain ⟨hw, hl⟩ := h
  cases hmoves with
  | out_of_range | in_use => exact ⟨hw, hl⟩
  | add t fd' flag ch _ _ _ =>
    refine ⟨fun hw' => ?_, hl⟩
    rcases watched_watch_fd hw' with rfl | hold
    · exact absurd rfl (of_decide_eq_false hadds)
    · exact hw hold
  | store t fd' ch _ => exact ⟨hw, hl⟩
  | remove t fd' r _ _ hr => exact ⟨fun hw' => hw ((unwatch_fd_sets hr).2.1 fd hw'), hl⟩
  | resume t fd' _ _ => exact ⟨hw, hl⟩
  | spurious t fd' _ => exact ⟨hw, hl⟩
  | del fd' flag r wr fd'' ch rs ws _ hr =>
    exact ⟨fun hw' => hw ((unwatch_fd_sets hr).2.1 fd hw'), hl⟩
  | round _ _ => exact ⟨hw, fun h => h⟩
  | copy _ => exact ⟨hw, hw⟩
  | test rs ws hloop =>
    rw [hloop] at hl
    exact ⟨hw, fun h => hl (nextCallback_concerns h)⟩
  | call wr fd' ch rs ws hloop _ =>
    rw [hloop] at hl
    exact ⟨hw, hl⟩
  | crash wr fd' rs ws _ _ => exact ⟨hw, fun h => h⟩
  | back wr fd' ch rs ws hloop =>
    rw [hloop] at hl
    exact ⟨hw, fun h => hl (.inr h)⟩
  | ready r w tr tw high hloop _ =>
    rw [hloop] at hl
    obtain ⟨hr, hw', -, -⟩ := wait_ready_aio p.aio_ high (select (high + 1) r tr)
      (select (high + 1) w tw)
    refine ⟨?_, fun h => hl ?_⟩
    · show ¬ (_ ∨ _)
      rw [hr, hw']
      exact hw
    · refine (wait_ready_concerns h).imp (fun htr => ?_) fun htw => ?_
      · exact ((select_eq_true_iff _ _ _ _).mp htr).1
      · exact ((select_eq_true_iff _ _ _ _).mp htw).1
  | eintr tr tw high _ => exact ⟨hw, fun h => h⟩

/-! ## The invariant -/

/-- What the callers keep to. Nobody takes the pipe from the manager; nobody adds a callback for a
descriptor that is being removed; and `block_remove_fd`, which waits without a loop, is
not woken up for nothing. -/
def Allowed (p : PollMgr) : Act → Prop
  | .add _ fd _ _ => .waiting fd ∉ p.users ∧ .woken fd ∉ p.users
  | .remove _ fd => fd ≠ p.aio_.pipefd_
  | .del fd _ => fd ≠ p.aio_.pipefd_
  | .spurious _ => False
  | _ => True

instance decidableAllowed (p : PollMgr) : (a : Act) → Decidable (Allowed p a)
  | .add _ fd _ _ => inferInstanceAs (Decidable (.waiting fd ∉ p.users ∧ .woken fd ∉ p.users))
  | .remove _ fd => inferInstanceAs (Decidable (fd ≠ p.aio_.pipefd_))
  | .del fd _ => inferInstanceAs (Decidable (fd ≠ p.aio_.pipefd_))
  | .spurious _ => .isFalse fun h => h
  | .store _ | .resume _ | .go | .ready _ _ | .eintr => .isTrue trivial

/-- The poll thread has still to look at the pipe in this round. -/
def Loop.BeforeRead : Loop → Prop
  | .polling => True
  | .selecting _ _ _ => True
  | _ => False

structure Inv (p : PollMgr) : Prop where
  sound : Sound p.aio_
  waiting : ∀ fd, .waiting fd ∈ p.users → p.pending_change_ = true ∧ ¬ Watched p.aio_ fd
  woken : ∀ fd, .woken fd ∈ p.users → Silent p fd
  adding : ∀ fd ch, .adding fd ch ∈ p.users → .waiting fd ∉ p.users ∧ .woken fd ∉ p.users
  tested : ∀ wr fd rs ws, p.loop = .tested wr fd rs ws → p.callbacks_ fd ≠ none
  alive : p.loop ≠ .crashed
  copies : ∀ tr tw high, p.loop = .selecting tr tw high →
    tr p.aio_.pipefd_ = true ∧ p.aio_.pipefd_ ≤ high
  /-- A change that is pending ends the `select` that is under way. -/
  pipe : p.pending_change_ = true → p.loop.BeforeRead → 0 < p.aio_.piped

theorem inv_new (pipefd_ users : ℕ) : Inv (.new pipefd_ users) := by
  have hidle : ∀ u ∈ (PollMgr.new pipefd_ users).users, u = .idle := fun u hu =>
    (List.mem_replicate.mp hu).2
  refine ⟨sound_new pipefd_, fun fd h => ?_, fun fd h => ?_, fun fd ch h => ?_, ?_, ?_, ?_, ?_⟩
  · cases hidle _ h
  · cases hidle _ h
  · cases hidle _ h
  · intro wr fd rs ws h
    cases h
  · exact Loop.noConfusion
  · intro tr tw high h
    cases h
  · intro h
    cases h

section Inv

variable {p : PollMgr} {t fd : ℕ}

/-- Nobody is in `add_callback` while the mutex is free. -/
theorem not_adding_of_free (h : p.free = true) (ch : ℕ) : .adding fd ch ∉ p.users := by
  intro hmem
  have hnot := List.all_eq_true.mp h _ hmem
  cases hnot

/-- The poll thread goes on, and nothing else changes. -/
theorem inv_loop (hp : Inv p) {loop : Loop}
    (hconcerns : ∀ fd, loop.Concerns fd → p.loop.Concerns fd ∨ Watched p.aio_ fd)
    (htested : ∀ wr fd rs ws, loop = .tested wr fd rs ws → p.callbacks_ fd ≠ none)
    (halive : loop ≠ .crashed)
    (hcopies : ∀ tr tw high, loop = .selecting tr tw high →
      tr p.aio_.pipefd_ = true ∧ p.aio_.pipefd_ ≤ high)
    (hread : loop.BeforeRead → p.loop.BeforeRead) : Inv { p with loop := loop } := by
  refine ⟨hp.sound, hp.waiting, fun fd hfd => ?_, hp.adding, htested, halive, hcopies,
    fun hpending hbefore => hp.pipe hpending (hread hbefore)⟩
  obtain ⟨hw, hl⟩ := hp.woken fd hfd
  exact ⟨hw, fun h => (hconcerns fd h).elim hl hw⟩

/-- A callback was tested before it is called. -/
theorem nextCallback_tested {rs ws rs' ws' : List ℕ} {wr : Bool}
    (h : nextCallback p rs ws = .tested wr fd rs' ws') : p.callbacks_ fd ≠ none := by
  cases rs with
  | cons fd' rs =>
    simp only [nextCallback] at h
    split_ifs at h with hcb
    cases h
    exact Option.isSome_iff_ne_none.mp hcb
  | nil =>
    cases ws with
    | cons fd' ws =>
      simp only [nextCallback] at h
      split_ifs at h with hcb
      cases h
      exact Option.isSome_iff_ne_none.mp hcb
    | nil => cases h

/-- The loop over the descriptors skips a missing callback, and does not call `select`. -/
theorem nextCallback_cases (rs ws : List ℕ) :
    nextCallback p rs ws ≠ .crashed ∧ ¬ (nextCallback p rs ws).BeforeRead
      ∧ ∀ tr tw high, nextCallback p rs ws ≠ .selecting tr tw high := by
  cases rs with
  | cons fd' rs =>
    simp only [nextCallback]
    split_ifs <;> exact ⟨Loop.noConfusion, fun h => h, fun _ _ _ => Loop.noConfusion⟩
  | nil =>
    cases ws with
    | cons fd' ws =>
      simp only [nextCallback]
      split_ifs <;> exact ⟨Loop.noConfusion, fun h => h, fun _ _ _ => Loop.noConfusion⟩
    | nil => exact ⟨Loop.noConfusion, fun h => h, fun _ _ _ => Loop.noConfusion⟩

theorem wait_ready_cases (a : SelectAio) (high : ℕ) (tr tw : ℕ → Bool) :
    (wait_ready a high tr tw).2 = .top
      ∨ (wait_ready a high tr tw).2
        = .calling (readable a.pipefd_ high tr) (writable a.pipefd_ high tr tw) := by
  simp only [wait_ready]
  split_ifs
  · exact .inl rfl
  · exact .inr rfl

/-- A callback may be added for a descriptor that nobody is removing. -/
theorem inv_add (hp : Inv p) {flag : poll_flag} {ch : ℕ} (hfree : p.free = true)
    (hwait : .waiting fd ∉ p.users) (hwoken : .woken fd ∉ p.users) :
    Inv { p with aio_ := watch_fd p.aio_ fd flag, users := p.users.set t (.adding fd ch) } := by
  have hwatched : ∀ fd', fd' ≠ fd → ¬ Watched p.aio_ fd' →
      ¬ Watched (watch_fd p.aio_ fd flag) fd' :=
    fun fd' hne hno h => (watched_watch_fd h).elim hne hno
  have hold : ∀ u, (∀ fd ch, u ≠ .adding fd ch) → u ∈ p.users.set t (.adding fd ch) →
      u ∈ p.users := fun u hne hu => (List.mem_or_eq_of_mem_set hu).resolve_right (hne fd ch)
  refine ⟨sound_watch_fd hp.sound fd flag, fun fd' h => ?_, fun fd' h => ?_, fun fd' ch' h => ?_,
    hp.tested, hp.alive, hp.copies, fun hpending hread => ?_⟩
  · have hmem := hold _ (fun _ _ => User.noConfusion) h
    obtain ⟨hpending, hno⟩ := hp.waiting fd' hmem
    exact ⟨hpending, hwatched fd' (fun heq => hwait (heq ▸ hmem)) hno⟩
  · have hmem := hold _ (fun _ _ => User.noConfusion) h
    obtain ⟨hno, hl⟩ := hp.woken fd' hmem
    exact ⟨hwatched fd' (fun heq => hwoken (heq ▸ hmem)) hno, hl⟩
  · rcases List.mem_or_eq_of_mem_set h with hmem | heq
    · exact absurd hmem (not_adding_of_free hfree ch')
    · cases heq
      exact ⟨fun h => hwait (hold _ (fun _ _ => User.noConfusion) h),
        fun h => hwoken (hold _ (fun _ _ => User.noConfusion) h)⟩
  · exact Nat.succ_pos _

theorem inv_store (hp : Inv p) {ch : ℕ} :
    Inv { p with
      callbacks_ := Function.update p.callbacks_ fd (some ch), users := p.users.set t .idle } := by
  have hold : ∀ u, u ≠ .idle → u ∈ p.users.set t .idle → u ∈ p.users := fun u hne hu =>
    (List.mem_or_eq_of_mem_set hu).resolve_right hne
  refine ⟨hp.sound, fun fd' h => hp.waiting fd' (hold _ User.noConfusion h), fun fd' h => ?_,
    fun fd' ch' h => ?_, fun wr fd' rs ws hl => ?_, hp.alive, hp.copies, hp.pipe⟩
  · obtain ⟨hw, hl⟩ := hp.woken fd' (hold _ User.noConfusion h)
    exact ⟨hw, hl⟩
  · obtain ⟨h1, h2⟩ := hp.adding fd' ch' (hold _ User.noConfusion h)
    exact ⟨fun h => h1 (hold _ User.noConfusion h), fun h => h2 (hold _ User.noConfusion h)⟩
  · show Function.update p.callbacks_ fd (some ch) fd' ≠ none
    by_cases heq : fd' = fd
    · rw [heq, Function.update_self]
      exact Option.some_ne_none ch
    · rw [Function.update_of_ne heq]
      exact hp.tested wr fd' rs ws hl

/-- The descriptor is no longer watched, and the byte in the pipe ends the `select` that may
still know it. -/
theorem inv_remove (hp : Inv p) {r : SelectAio × Bool} (hfree : p.free = true)
    (hpipefd : fd ≠ p.aio_.pipefd_) (hr : unwatch_fd p.aio_ fd .CB_RDWR = some r) :
    Inv { p with
      aio_ := r.1, pending_change_ := true, users := p.users.set t (.waiting fd) } := by
  obtain ⟨-, hsub, hclear, -⟩ := unwatch_fd_sets hr
  obtain ⟨hpipe, hpiped, -⟩ := unwatch_fd_rest hr
  obtain ⟨hr0, hw0⟩ := hclear rfl
  refine ⟨sound_unwatch_fd hp.sound hpipefd hr, fun fd' h => ⟨rfl, ?_⟩, fun fd' h => ?_,
    fun fd' ch' h => ?_, hp.tested, hp.alive, ?_, fun _ _ => ?_⟩
  · rcases List.mem_or_eq_of_mem_set h with hmem | heq
    · exact fun hw => (hp.waiting fd' hmem).2 (hsub fd' hw)
    · cases heq
      rintro (hw | hw)
      · rw [hr0] at hw
        cases hw
      · rw [hw0] at hw
        cases hw
  · rcases List.mem_or_eq_of_mem_set h with hmem | heq
    · obtain ⟨hw, hl⟩ := hp.woken fd' hmem
      exact ⟨fun hw' => hw (hsub fd' hw'), hl⟩
    · cases heq
  · rcases List.mem_or_eq_of_mem_set h with hmem | heq
    · exact absurd hmem (not_adding_of_free hfree ch')
    · cases heq
  · show ∀ tr tw high, p.loop = .selecting tr tw high → tr r.1.pipefd_ = true ∧ r.1.pipefd_ ≤ high
    rw [hpipe]
    exact hp.copies
  · show 0 < r.1.piped
    rw [hpiped, if_pos rfl]
    exact Nat.succ_pos _

/-- Whoever was woken finds the descriptor silent, so its callback is not about to be made. -/
theorem inv_resume (hp : Inv p) (hu : p.users[t]? = some (.woken fd)) :
    Inv { p with
      callbacks_ := Function.update p.callbacks_ fd none, users := p.users.set t .idle } := by
  have hold : ∀ u, u ≠ .idle → u ∈ p.users.set t .idle → u ∈ p.users := fun u hne hu =>
    (List.mem_or_eq_of_mem_set hu).resolve_right hne
  refine ⟨hp.sound, fun fd' h => hp.waiting fd' (hold _ User.noConfusion h), fun fd' h => ?_,
    fun fd' ch' h => ?_, fun wr fd' rs ws hl => ?_, hp.alive, hp.copies, hp.pipe⟩
  · obtain ⟨hw, hl⟩ := hp.woken fd' (hold _ User.noConfusion h)
    exact ⟨hw, hl⟩
  · obtain ⟨h1, h2⟩ := hp.adding fd' ch' (hold _ User.noConfusion h)
    exact ⟨fun h => h1 (hold _ User.noConfusion h), fun h => h2 (hold _ User.noConfusion h)⟩
  · -- the poll thread is not about to call what is removed
    have hne : fd' ≠ fd := by
      rintro rfl
      refine (hp.woken fd' (List.mem_of_getElem? hu)).loop ?_
      rw [hl]
      exact .inl rfl
    show Function.update p.callbacks_ fd none fd' ≠ none
    rw [Function.update_of_ne hne]
    exact hp.tested wr fd' rs ws hl

theorem inv_del (hp : Inv p) {flag : poll_flag} {r : SelectAio × Bool} {wr : Bool} {fd' ch : ℕ}
    {rs ws : List ℕ} {callbacks : ℕ → Option ℕ} (hl : p.loop = .inside wr fd' ch rs ws)
    (hpipefd : fd ≠ p.aio_.pipefd_) (hr : unwatch_fd p.aio_ fd flag = some r) :
    Inv { p with aio_ := r.1, callbacks_ := callbacks } := by
  obtain ⟨-, hsub, -, -⟩ := unwatch_fd_sets hr
  refine ⟨sound_unwatch_fd hp.sound hpipefd hr, fun fd' h => ?_, fun fd' h => ?_, hp.adding,
    fun wr fd' rs ws hl' => ?_, hp.alive, fun tr tw high hl' => ?_, fun _ hread => ?_⟩
  · obtain ⟨hpending, hno⟩ := hp.waiting fd' h
    exact ⟨hpending, fun hw => hno (hsub fd' hw)⟩
  · obtain ⟨hw, hl⟩ := hp.woken fd' h
    exact ⟨fun hw' => hw (hsub fd' hw'), hl⟩
  · rw [hl] at hl'
    cases hl'
  · rw [hl] at hl'
    cases hl'
  · rw [hl] at hread
    exact hread.elim

/-- **The poll thread comes round**: whoever waits is woken, and what they remove is not
in the poll thread's hands. -/
theorem inv_round (hp : Inv p) :
    Inv { p with
      pending_change_ := false
      users := if p.pending_change_ then p.users.map User.rouse else p.users
      loop := .polling } := by
  have hold : ∀ u ∈ (if p.pending_change_ then p.users.map User.rouse else p.users),
      u ∈ p.users ∧ (∀ fd, u ≠ .waiting fd) ∨ ∃ fd, u = .woken fd ∧ .waiting fd ∈ p.users := by
    intro u hu
    cases hpending : p.pending_change_ with
    | true =>
      rw [hpending, if_pos rfl] at hu
      obtain ⟨v, hv, rfl⟩ := List.mem_map.mp hu
      cases v with
      | waiting fd => exact .inr ⟨fd, rfl, hv⟩
      | idle => exact .inl ⟨hv, fun _ => User.noConfusion⟩
      | adding fd ch => exact .inl ⟨hv, fun _ => User.noConfusion⟩
      | woken fd => exact .inl ⟨hv, fun _ => User.noConfusion⟩
    | false =>
      rw [hpending, if_neg Bool.false_ne_true] at hu
      refine .inl ⟨hu, ?_⟩
      rintro fd rfl
      have hyes := (hp.waiting fd hu).1
      rw [hpending] at hyes
      cases hyes
  refine ⟨hp.sound, fun fd h => ?_, fun fd h => ⟨?_, fun h => h⟩, fun fd ch h => ?_, ?_,
    Loop.noConfusion, ?_, ?_⟩
  · rcases hold _ h with ⟨-, hne⟩ | ⟨fd', heq, -⟩
    · exact absurd rfl (hne fd)
    · cases heq
  · rcases hold _ h with ⟨hmem, -⟩ | ⟨fd', heq, hmem⟩
    · exact (hp.woken fd hmem).unwatched
    · cases heq
      exact (hp.waiting fd hmem).2
  · rcases hold _ h with ⟨hmem, -⟩ | ⟨fd', heq, -⟩
    · obtain ⟨h1, h2⟩ := hp.adding fd ch hmem
      refine ⟨fun h => ?_, fun h => ?_⟩
      · rcases hold _ h with ⟨hmem, -⟩ | ⟨fd', heq, -⟩
        · exact h1 hmem
        · cases heq
      · rcases hold _ h with ⟨hmem, -⟩ | ⟨fd', heq, hmem⟩
        · exact h2 hmem
        · cases heq
          exact h1 hmem
    · cases heq
  · intro wr fd rs ws h
    cases h
  · intro tr tw high h
    cases h
  · intro h
    cases h

theorem inv_ready (hp : Inv p) {r w tr tw : ℕ → Bool} {high : ℕ}
    (hl : p.loop = .selecting tr tw high) :
    Inv { p with
      aio_ := (wait_ready p.aio_ high (select (high + 1) r tr) (select (high + 1) w tw)).1
      loop := (wait_ready p.aio_ high (select (high + 1) r tr) (select (high + 1) w tw)).2 } := by
  obtain ⟨hr, hw, hh, hpipe⟩ := wait_ready_aio p.aio_ high (select (high + 1) r tr)
    (select (high + 1) w tw)
  have hwatched : ∀ fd, Watched (wait_ready p.aio_ high (select (high + 1) r tr)
      (select (high + 1) w tw)).1 fd ↔ Watched p.aio_ fd := by
    intro fd
    rw [Watched, Watched, hr, hw]
  have hconcerns : ∀ fd, (wait_ready p.aio_ high (select (high + 1) r tr)
      (select (high + 1) w tw)).2.Concerns fd → p.loop.Concerns fd := by
    intro fd h
    rw [hl]
    refine (wait_ready_concerns h).imp (fun htr => ?_) fun htw => ?_
    · exact ((select_eq_true_iff _ _ _ _).mp htr).1
    · exact ((select_eq_true_iff _ _ _ _).mp htw).1
  refine ⟨⟨?_, fun fd h => ?_, ?_⟩, fun fd h => ?_, fun fd h => ?_, hp.adding, ?_, ?_, ?_, ?_⟩
  · rw [hr, hpipe]
    exact hp.sound.pipe
  · rw [hh]
    exact hp.sound.le fd ((hwatched fd).mp h)
  · rw [hwatched, hh]
    exact hp.sound.high
  · obtain ⟨hpending, hno⟩ := hp.waiting fd h
    exact ⟨hpending, fun h => hno ((hwatched fd).mp h)⟩
  · obtain ⟨hno, hloop⟩ := hp.woken fd h
    exact ⟨fun h => hno ((hwatched fd).mp h), fun h => hloop (hconcerns fd h)⟩
  · intro wr fd rs ws h
    rcases wait_ready_cases p.aio_ high (select (high + 1) r tr) (select (high + 1) w tw)
      with hres | hres
    all_goals
      have h' := hres.symm.trans h
      cases h'
  · intro h
    rcases wait_ready_cases p.aio_ high (select (high + 1) r tr) (select (high + 1) w tw)
      with hres | hres
    all_goals
      have h' := hres.symm.trans h
      cases h'
  · intro tr' tw' high' h
    rcases wait_ready_cases p.aio_ high (select (high + 1) r tr) (select (high + 1) w tw)
      with hres | hres
    all_goals
      have h' := hres.symm.trans h
      cases h'
  · intro _ hread
    rcases wait_ready_cases p.aio_ high (select (high + 1) r tr) (select (high + 1) w tw)
      with hres | hres
    all_goals
      dsimp only at hread
      rw [hres] at hread
      exact hread.elim

end Inv

/-- **Every step keeps the invariant.** -/
theorem inv_step {a : Act} (hp : Inv p) (hok : Allowed p a) (hs : step p a = some p') : Inv p' := by
  cases moves_of_step hs with
  | out_of_range | in_use =>
    exact ⟨hp.sound, hp.waiting, fun fd h => ⟨(hp.woken fd h).1, (hp.woken fd h).2⟩,
      hp.adding, hp.tested, hp.alive, hp.copies, hp.pipe⟩
  | add t fd flag ch hfree _ _ => exact inv_add hp hfree hok.1 hok.2
  | store t fd ch _ => exact inv_store hp
  | remove t fd r hfree _ hr => exact inv_remove hp hfree hok hr
  | resume t fd hu _ => exact inv_resume hp hu
  | spurious t fd _ => exact hok.elim
  | del fd flag r wr fd' ch rs ws hl hr => exact inv_del hp hl hok hr
  | round _ _ => exact inv_round hp
  | copy hl =>
    refine inv_loop hp (fun fd h => .inr h) (fun _ _ _ _ h => by cases h) Loop.noConfusion ?_
      fun _ => by rw [hl]; trivial
    intro tr tw high h
    cases h
    exact ⟨hp.sound.pipe, hp.sound.le _ (.inl hp.sound.pipe)⟩
  | test rs ws hl =>
    obtain ⟨halive, hread, hsel⟩ := nextCallback_cases (p := p) rs ws
    refine inv_loop hp (fun fd h => .inl ?_) (fun _ _ _ _ h => nextCallback_tested h) halive
      (fun tr tw high h => absurd h (hsel tr tw high)) fun h => absurd h hread
    rw [hl]
    exact nextCallback_concerns h
  | call wr fd ch rs ws hl _ =>
    refine inv_loop hp (fun fd h => .inl ?_) (fun _ _ _ _ h => by cases h) Loop.noConfusion
      (fun _ _ _ h => by cases h) fun h => h.elim
    rw [hl]
    exact h
  | crash wr fd rs ws hl hcb => exact absurd hcb (hp.tested wr fd rs ws hl)
  | back wr fd ch rs ws hl =>
    refine inv_loop hp (fun fd h => .inl ?_) (fun _ _ _ _ h => by cases h) Loop.noConfusion
      (fun _ _ _ h => by cases h) fun h => h.elim
    rw [hl]
    exact .inr h
  | ready r w tr tw high hl _ => exact inv_ready hp hl
  | eintr tr tw high hl =>
    exact inv_loop hp (fun fd h => h.elim) (fun _ _ _ _ h => by cases h) Loop.noConfusion
      (fun _ _ _ h => by cases h) fun h => h.elim

theorem inv_run {pipefd_ users : ℕ} {as : List Act}
    (hrun : Steps.run step (.new pipefd_ users) as = some p)
    (hok : Steps.RunMeets step Allowed (.new pipefd_ users) as) : Inv p :=
  Steps.run_inv (fun _ _ _ h hallowed hs => inv_step h hallowed hs) (inv_new pipefd_ users) hok hrun

/-! ## What is removed is not called back -/

/-- The descriptor is silent, has no callback and is not being added. -/
structure Removed (p : PollMgr) (fd : ℕ) : Prop where
  silent : Silent p fd
  callback : p.callbacks_ fd = none
  adding : ∀ ch, .adding fd ch ∉ p.users

/-- What has been removed stays so until the same descriptor is added again. -/
theorem removed_step {a : Act} {fd : ℕ} (h : Removed p fd)
    (hadds : a.adds fd = false) (hs : step p a = some p') : Removed p' fd := by
  have hmoves := moves_of_step hs
  refine ⟨h.silent.step hadds hmoves, ?_, ?_⟩
  · cases hmoves with
    | store t fd' ch hu =>
      have hne : fd ≠ fd' := by
        rintro rfl
        exact h.adding ch (List.mem_of_getElem? hu)
      exact (Function.update_of_ne hne ..).trans h.callback
    | resume t fd' _ _ =>
      show Function.update p.callbacks_ fd' none fd = none
      by_cases heq : fd = fd'
      · rw [heq, Function.update_self]
      · rw [Function.update_of_ne heq, h.callback]
    | del fd' flag r wr fd'' ch rs ws _ _ =>
      show (if r.2 then Function.update p.callbacks_ fd' none else p.callbacks_) fd = none
      by_cases heq : fd = fd'
      · split_ifs
        · rw [heq, Function.update_self]
        · exact h.callback
      · split_ifs
        · rw [Function.update_of_ne heq, h.callback]
        · exact h.callback
    | out_of_range | in_use | add | remove | spurious | round | copy | test | call | crash | back
      | ready | eintr =>
        exact h.callback
  · intro ch hmem
    cases hmoves with
    | add t fd' flag ch' _ _ _ =>
      rcases List.mem_or_eq_of_mem_set hmem with hmem | heq
      · exact h.adding ch hmem
      · cases heq
        exact absurd rfl (of_decide_eq_false hadds)
    | store | remove | resume | spurious =>
      rcases List.mem_or_eq_of_mem_set hmem with hmem | heq
      · exact h.adding ch hmem
      · cases heq
    | round _ _ =>
      have hmem' : .adding fd ch ∈ (if p.pending_change_ then p.users.map User.rouse
        else p.users) := hmem
      split_ifs at hmem'
      · obtain ⟨v, hv, heq⟩ := List.mem_map.mp hmem'
        cases v with
        | adding fd' ch' =>
          cases heq
          exact h.adding ch hv
        | idle | waiting fd' | woken fd' => cases heq
      · exact h.adding ch hmem'
    | out_of_range | in_use | del | copy | test | call | crash | back | ready | eintr =>
      exact h.adding ch hmem

/-- `block_remove_fd` leaves the descriptor removed when it returns. -/
theorem removed_resume {t fd : ℕ} (hp : Inv p)
    (hwoken : p.users[t]? = some (.woken fd)) (hs : step p (.resume t) = some p') :
    Removed p' fd := by
  have hmoves := moves_of_step hs
  refine ⟨(hp.woken fd (List.mem_of_getElem? hwoken)).step rfl hmoves, ?_, ?_⟩
  · cases hmoves with
    | resume t fd' hu _ =>
      rw [hwoken] at hu
      cases hu
      exact Function.update_self ..
  · intro ch hmem
    cases hmoves with
    | resume t fd' _ hfree =>
      rcases List.mem_or_eq_of_mem_set hmem with hmem | heq
      · exact not_adding_of_free hfree ch hmem
      · cases heq

theorem Removed.has_callback {fd : ℕ} (h : Removed p fd) (flag : poll_flag)
    (ch : ℕ) : has_callback p fd flag ch = false := by
  unfold PollLoop.has_callback
  rw [h.callback]
  rfl

/-- **What `block_remove_fd` promises.** In no run does the poll thread call through a null
pointer, although it reads `callbacks_` without the mutex. And when a call of
`block_remove_fd` has returned, then until a callback is added for the descriptor again
the poll thread does not wait for the descriptor, is not in a callback for it and has
none to make, and `has_callback` says so. -/
theorem block_remove_fd_promise {pipefd_ users : ℕ} {as : List Act} {p : PollMgr}
    (hrun : Steps.run step (.new pipefd_ users) as = some p)
    (hok : Steps.RunMeets step Allowed (.new pipefd_ users) as) :
    p.loop ≠ .crashed
      ∧ ∀ t fd p₁ bs p₂, p.users[t]? = some (.woken fd) → step p (.resume t) = some p₁ →
        Steps.run step p₁ bs = some p₂ → Steps.RunMeets step Allowed p₁ bs →
        (∀ a ∈ bs, a.adds fd = false) →
          ¬ p₂.loop.Concerns fd ∧ p₂.callbacks_ fd = none ∧ p₂.loop ≠ .crashed
            ∧ ∀ flag ch, has_callback p₂ fd flag ch = false := by
  have hp := inv_run hrun hok
  refine ⟨hp.alive, fun t fd p₁ bs p₂ hwoken hreturns hrun' hok' hadds => ?_⟩
  have hp₁ : Inv p₁ := inv_step (a := .resume t) hp trivial hreturns
  have hp₂ : Inv p₂ :=
    Steps.run_inv (fun _ _ _ h hallowed hs => inv_step h hallowed hs) hp₁ hok' hrun'
  have hremoved : Removed p₂ fd :=
    Steps.run_inv_forall (p := fun a => a.adds fd = false)
      (fun _ _ _ h hno hs => removed_step h hno hs) (removed_resume hp hwoken hreturns) hadds hrun'
  exact ⟨hremoved.silent.loop, hremoved.callback, hp₂.alive, hremoved.has_callback⟩

/-- Descriptor 5 is added and found ready; while the callback runs, another thread removes
the descriptor, and is woken when the poll thread comes round. -/
def removedInCallback : List Act :=
  [.add 0 5 .CB_RDONLY 1, .store 0, .go, .go, .ready (fun fd => fd = 5 || fd = 3) fun _ => false,
    .go, .go, .remove 1 5, .go, .go, .go]

theorem block_remove_fd_promise_removedInCallback :
    ∃ p p₁ p₂, Steps.run step (.new 3 2) removedInCallback = some p
      ∧ step p (.resume 1) = some p₁
      ∧ Steps.run step p₁ [.go, .ready (fun fd => fd = 3) fun _ => false] = some p₂
      ∧ ¬ p₂.loop.Concerns 5 ∧ p₂.callbacks_ 5 = none := by
  have hex : (Steps.run step (.new 3 2) removedInCallback).bind (fun p => (step p (.resume 1)).bind
      fun p₁ => (Steps.run step p₁ [.go, .ready (fun fd => fd = 3) fun _ => false]).map
        fun p₂ => (p.users, p₂.users)) = some ([.idle, .woken 5], [.idle, .idle]) := by decide
  obtain ⟨p, hp, hex⟩ := Option.bind_eq_some_iff.mp hex
  obtain ⟨p₁, hp₁, hex⟩ := Option.bind_eq_some_iff.mp hex
  obtain ⟨p₂, hp₂, hex⟩ := Option.map_eq_some_iff.mp hex
  obtain ⟨husers, -⟩ := Prod.mk.inj hex
  obtain ⟨hloop, hcb, -⟩ := (block_remove_fd_promise hp (by decide)).2 1 5 p₁ _ p₂
    (by rw [husers]; rfl) hp₁ hp₂ ⟨trivial, fun _ _ => ⟨trivial, fun _ _ => trivial⟩⟩ (by decide)
  exact ⟨p, p₁, p₂, hp, hp₁, hp₂, hloop, hcb⟩

-- Woken up for nothing, `block_remove_fd` returns while the callback runs.
example : (Steps.run step (.new 3 2) (removedInCallback.take 8 ++ [.spurious 1, .resume 1])).map
    (fun p => (p.users, match p.loop with | .inside _ fd _ _ _ => some fd | _ => none))
      = some ([.idle, .idle], some 5) := by decide

end Yfs.PollLoop
