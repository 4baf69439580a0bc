/-
The two ways of waiting for descriptors (`rpc/pollmgr.cc`): `SelectAIO`, which the
program uses, and `EPollAIO`.

Both implement `aio_mgr`. `SelectAIO` keeps the descriptors in two bit sets and, beside
them, the highest one, which `select` needs; the read end of a pipe is always among
them, and a byte in the pipe ends a `select` that is under way. `EPollAIO` keeps a word
of flags for each descriptor and tells the kernel of every change.

A failed `VERIFY` is `none`.
-/
import Yfs.Steps
import Mathlib.Logic.Function.Basic

set_option autoImplicit false

namespace Yfs.AioMgr

/-- `poll_flag`, less the mask. -/
inductive poll_flag where
  | CB_NONE | CB_RDONLY | CB_WRONLY | CB_RDWR
  deriving DecidableEq, Repr

/-! ## `SelectAIO` -/

structure SelectAio where
  rfds_ : ℕ → Bool
  wfds_ : ℕ → Bool
  highfds_ : ℕ
  /-- The end of the pipe that is read. -/
  pipefd_ : ℕ
  /-- The bytes in the pipe. -/
  piped : ℕ

def SelectAio.new (pipefd_ : ℕ) : SelectAio :=
  ⟨fun fd => fd = pipefd_, fun _ => false, pipefd_, pipefd_, 0⟩

def watch_fd (a : SelectAio) (fd : ℕ) (flag : poll_flag) : SelectAio :=
  { a with
    highfds_ := if a.highfds_ ≤ fd then fd else a.highfds_
    rfds_ := if flag = .CB_WRONLY then a.rfds_ else Function.update a.rfds_ fd true
    wfds_ := if flag = .CB_RDONLY then a.wfds_ else Function.update a.wfds_ fd true
    piped := a.piped + 1 }

def is_watched (a : SelectAio) (fd : ℕ) : poll_flag → Bool
  | .CB_RDONLY => a.rfds_ fd
  | .CB_WRONLY => a.wfds_ fd
  | _ => a.rfds_ fd && a.wfds_ fd

/-- The loop of `unwatch_fd` over the descriptors up to `n`. -/
def rescan (r w : ℕ → Bool) (pipefd : ℕ) : ℕ → ℕ
  | 0 => if r 0 then 0 else if w 0 then 0 else pipefd
  | n + 1 => if r (n + 1) then n + 1 else if w (n + 1) then n + 1 else rescan r w pipefd n

def unwatch_fd (a : SelectAio) (fd : ℕ) (flag : poll_flag) : Option (SelectAio × Bool) :=
  if flag = .CB_NONE then none
  else
    let r := if flag = .CB_WRONLY then a.rfds_ else Function.update a.rfds_ fd false
    let w := if flag = .CB_RDONLY then a.wfds_ else Function.update a.wfds_ fd false
    some ({ a with
      rfds_ := r
      wfds_ := w
      highfds_ := if !r fd && !w fd && fd = a.highfds_ then rescan r w a.pipefd_ a.highfds_
        else a.highfds_
      piped := if flag = .CB_RDWR then a.piped + 1 else a.piped }, !r fd && !w fd)

/-- What `select` has left in the two sets: the descriptors below `nfds` that are ready. -/
def select (nfds : ℕ) (ready set : ℕ → Bool) (fd : ℕ) : Bool := set fd && (fd < nfds && ready fd)

/-- The loop of `wait_ready` over the descriptors, for the ones that are readable. -/
def readable (pipefd high : ℕ) (trfds : ℕ → Bool) : List ℕ :=
  (List.range (high + 1)).filter fun fd => !(fd = pipefd && trfds fd) && trfds fd

/-- The same for those that are writable. -/
def writable (pipefd high : ℕ) (trfds twfds : ℕ → Bool) : List ℕ :=
  (List.range (high + 1)).filter fun fd => !(fd = pipefd && trfds fd) && twfds fd

/-! ## The highest descriptor -/

/-- The descriptor is in one of the sets. -/
def Watched (a : SelectAio) (fd : ℕ) : Prop := a.rfds_ fd = true ∨ a.wfds_ fd = true

instance decidableWatched (a : SelectAio) (fd : ℕ) : Decidable (Watched a fd) :=
  inferInstanceAs (Decidable (a.rfds_ fd = true ∨ a.wfds_ fd = true))

/-- `highfds_` is the highest descriptor that is watched, and the pipe is watched. -/
structure Sound (a : SelectAio) : Prop where
  pipe : a.rfds_ a.pipefd_ = true
  le : ∀ fd, Watched a fd → fd ≤ a.highfds_
  high : Watched a a.highfds_

theorem sound_new (pipefd_ : ℕ) : Sound (.new pipefd_) := by
  refine ⟨decide_eq_true rfl, fun fd hfd => ?_, .inl (decide_eq_true rfl)⟩
  rcases hfd with hr | hw
  · exact Nat.le_of_eq (of_decide_eq_true hr)
  · cases hw

/-- What the loop of `unwatch_fd` finds. -/
theorem rescan_spec (r w : ℕ → Bool) (pipefd n : ℕ) :
    (rescan r w pipefd n = pipefd ∨ r (rescan r w pipefd n) = true
        ∨ w (rescan r w pipefd n) = true)
      ∧ ∀ fd ≤ n, r fd = true ∨ w fd = true → fd ≤ rescan r w pipefd n := by
  induction n with
  | zero =>
    rw [rescan]
    split_ifs with hr hw
    · exact ⟨.inr (.inl hr), fun fd hfd _ => hfd⟩
    · exact ⟨.inr (.inr hw), fun fd hfd _ => hfd⟩
    · refine ⟨.inl rfl, fun fd hfd hset => ?_⟩
      obtain rfl := Nat.le_zero.mp hfd
      exact absurd hset (by simp [hr, hw])
  | succ n ih =>
    rw [rescan]
    split_ifs with hr hw
    · exact ⟨.inr (.inl hr), fun fd hfd _ => hfd⟩
    · exact ⟨.inr (.inr hw), fun fd hfd _ => hfd⟩
    · refine ⟨ih.1, fun fd hfd hset => ?_⟩
      rcases Nat.lt_or_eq_of_le hfd with hlt | rfl
      · exact ih.2 fd (Nat.le_of_lt_succ hlt) hset
      · exact absurd hset (by simp [hr, hw])

variable {flag : poll_flag} {a : SelectAio}

/-- What is watched after `watch_fd`. -/
theorem watched_watch_fd {fd fd' : ℕ}
    (h : Watched (watch_fd a fd flag) fd') : fd' = fd ∨ Watched a fd' := by
  by_cases heq : fd' = fd
  · exact .inl heq
  · refine .inr ?_
    simp only [Watched, watch_fd] at h ⊢
    rcases h with h | h
    · refine .inl ?_
      split_ifs at h
      · exact h
      · rwa [Function.update_of_ne heq] at h
    · refine .inr ?_
      split_ifs at h
      · exact h
      · rwa [Function.update_of_ne heq] at h

theorem watched_watch_fd_of {fd fd' : ℕ} (flag : poll_flag) (h : Watched a fd') :
    Watched (watch_fd a fd flag) fd' := by
  simp only [Watched, watch_fd] at h ⊢
  by_cases heq : fd' = fd
  · subst heq
    rcases h with h | h
    · left
      split_ifs
      · exact h
      · exact Function.update_self ..
    · right
      split_ifs
      · exact h
      · exact Function.update_self ..
  · rcases h with h | h
    · left
      split_ifs
      · exact h
      · rwa [Function.update_of_ne heq]
    · right
      split_ifs
      · exact h
      · rwa [Function.update_of_ne heq]

theorem watched_watch_fd_self (a : SelectAio) (fd : ℕ) (flag : poll_flag) :
    Watched (watch_fd a fd flag) fd := by
  simp only [Watched, watch_fd]
  cases flag with
  | CB_WRONLY => exact .inr (Function.update_self ..)
  | CB_NONE | CB_RDONLY | CB_RDWR => exact .inl (Function.update_self ..)

theorem sound_watch_fd (h : Sound a) (fd : ℕ) (flag : poll_flag) : Sound (watch_fd a fd flag) := by
  refine ⟨?_, fun fd' hfd' => ?_, ?_⟩
  · show (if flag = .CB_WRONLY then a.rfds_ else Function.update a.rfds_ fd true) a.pipefd_ = true
    split_ifs
    · exact h.pipe
    · by_cases heq : a.pipefd_ = fd
      · rw [heq]
        exact Function.update_self ..
      · rw [Function.update_of_ne heq]
        exact h.pipe
  · show fd' ≤ if a.highfds_ ≤ fd then fd else a.highfds_
    rcases watched_watch_fd hfd' with rfl | hold
    · split_ifs <;> omega
    · have hle := h.le fd' hold
      split_ifs <;> omega
  · show Watched (watch_fd a fd flag) (if a.highfds_ ≤ fd then fd else a.highfds_)
    split_ifs
    · exact watched_watch_fd_self a fd flag
    · exact watched_watch_fd_of flag h.high

section Unwatch

variable {a a' : SelectAio} {fd : ℕ} {flag : poll_flag} {b : Bool}

/-- What `unwatch_fd` does to the sets. -/
theorem unwatch_fd_sets (hs : unwatch_fd a fd flag = some (a', b)) :
    (∀ fd' ≠ fd, a'.rfds_ fd' = a.rfds_ fd' ∧ a'.wfds_ fd' = a.wfds_ fd')
      ∧ (∀ fd', Watched a' fd' → Watched a fd')
      ∧ (flag = .CB_RDWR → a'.rfds_ fd = false ∧ a'.wfds_ fd = false)
      ∧ (b = true ↔ ¬ Watched a' fd) := by
  have hclear : ∀ (f : ℕ → Bool) (fd' : ℕ), Function.update f fd false fd' = true →
      f fd' = true := by
    intro f fd' hf
    by_cases heq : fd' = fd
    · subst heq
      rw [Function.update_self] at hf
      cases hf
    · rwa [Function.update_of_ne heq] at hf
  have hb : ∀ r w : ℕ → Bool, ((!r fd && !w fd) = true ↔ ¬ (r fd = true ∨ w fd = true)) := by
    intro r w
    cases r fd <;> cases w fd <;> decide
  cases flag with
  | CB_NONE => cases hs
  | CB_RDONLY =>
    cases hs
    refine ⟨fun fd' hne => ⟨Function.update_of_ne hne .., rfl⟩, fun fd' hw => ?_,
      poll_flag.noConfusion, hb _ _⟩
    exact hw.imp (hclear a.rfds_ fd') id
  | CB_WRONLY =>
    cases hs
    refine ⟨fun fd' hne => ⟨rfl, Function.update_of_ne hne ..⟩, fun fd' hw => ?_,
      poll_flag.noConfusion, hb _ _⟩
    exact hw.imp id (hclear a.wfds_ fd')
  | CB_RDWR =>
    cases hs
    refine ⟨fun fd' hne => ⟨Function.update_of_ne hne .., Function.update_of_ne hne ..⟩,
      fun fd' hw => ?_, fun _ => ⟨Function.update_self .., Function.update_self ..⟩, hb _ _⟩
    exact hw.imp (hclear a.rfds_ fd') (hclear a.wfds_ fd')

/-- What it does to the rest. -/
theorem unwatch_fd_rest (hs : unwatch_fd a fd flag = some (a', b)) :
    a'.pipefd_ = a.pipefd_ ∧ a'.piped = (if flag = .CB_RDWR then a.piped + 1 else a.piped)
      ∧ a'.highfds_ = if ¬ Watched a' fd ∧ fd = a.highfds_
          then rescan a'.rfds_ a'.wfds_ a.pipefd_ a.highfds_ else a.highfds_ := by
  have hb := (unwatch_fd_sets hs).2.2.2
  unfold unwatch_fd at hs
  by_cases hnone : flag = .CB_NONE
  · rw [if_pos hnone] at hs
    cases hs
  rw [if_neg hnone] at hs
  obtain ⟨rfl, rfl⟩ := Prod.mk.inj (Option.some.inj hs)
  refine ⟨rfl, rfl, if_congr ?_ rfl rfl⟩
  exact Bool.and_eq_true_iff.trans (and_congr hb decide_eq_true_iff)

/-- **`unwatch_fd` keeps `highfds_` the highest.** -/
theorem sound_unwatch_fd (h : Sound a) (hfd : fd ≠ a.pipefd_)
    (hs : unwatch_fd a fd flag = some (a', b)) : Sound a' := by
  obtain ⟨hsame, hsub, -, -⟩ := unwatch_fd_sets hs
  obtain ⟨hpipefd, -, hhigh⟩ := unwatch_fd_rest hs
  have hpipe : a'.rfds_ a.pipefd_ = true := by
    rw [(hsame a.pipefd_ (Ne.symm hfd)).1]
    exact h.pipe
  obtain ⟨hfound, hmax⟩ := rescan_spec a'.rfds_ a'.wfds_ a.pipefd_ a.highfds_
  refine ⟨hpipefd ▸ hpipe, fun fd' hfd' => ?_, ?_⟩
  · have hle := h.le fd' (hsub fd' hfd')
    rw [hhigh]
    split_ifs
    · exact hmax fd' hle hfd'
    · exact hle
  · rw [hhigh]
    split_ifs with hcond
    · rcases hfound with hfound | hfound
      · rw [hfound]
        exact .inl hpipe
      · exact hfound
    · by_cases heq : fd = a.highfds_
      · rw [← heq]
        exact not_not.mp fun hno => hcond ⟨hno, heq⟩
      · obtain ⟨hr, hw⟩ := hsame a.highfds_ (Ne.symm heq)
        rw [Watched, hr, hw]
        exact h.high

end Unwatch

/-! ## What a round of `wait_ready` finds -/

/-- `select` looks only below `nfds` and only at what is set. -/
theorem select_eq_true_iff (nfds : ℕ) (ready set : ℕ → Bool) (fd : ℕ) :
    select nfds ready set fd = true ↔ set fd = true ∧ fd < nfds ∧ ready fd = true := by
  simp only [select, Bool.and_eq_true, decide_eq_true_eq]

/-- The values of `poll_flag`. -/
def poll_flag.bits : poll_flag → BitVec 32
  | .CB_NONE => 0
  | .CB_RDONLY => 0x1
  | .CB_WRONLY => 0x10
  | .CB_RDWR => 0x11

def CB_MASK : BitVec 32 := ~~~0x11

def MAX_POLL_FDS : ℕ := 128

structure EPollAio where
  fdstatus_ : ℕ → BitVec 32
  /-- What the kernel has been told: is the descriptor waited for, for input, for output? -/
  interest : ℕ → Option (Bool × Bool)

def EPollAio.new : EPollAio := ⟨fun _ => 0, fun _ => none⟩

inductive EpollOp where
  | EPOLL_CTL_ADD | EPOLL_CTL_MOD | EPOLL_CTL_DEL
  deriving DecidableEq, Repr

/-- The kernel refuses to add what is there, and to change or delete what is not. -/
def epoll_ctl (interest : ℕ → Option (Bool × Bool)) (op : EpollOp) (fd : ℕ) (ev : Bool × Bool) :
    Option (ℕ → Option (Bool × Bool)) :=
  match op, interest fd with
  | .EPOLL_CTL_ADD, none => some (Function.update interest fd (some ev))
  | .EPOLL_CTL_MOD, some _ => some (Function.update interest fd (some ev))
  | .EPOLL_CTL_DEL, some _ => some (Function.update interest fd none)
  | _, _ => none

/-- The events for a word of flags. -/
def eventsOf (status : BitVec 32) : Bool × Bool :=
  (status &&& poll_flag.CB_RDONLY.bits ≠ 0, status &&& poll_flag.CB_WRONLY.bits ≠ 0)

def EPollAio.watch_fd (e : EPollAio) (fd : ℕ) (flag : poll_flag) : Option EPollAio :=
  let op := if e.fdstatus_ fd ≠ 0 then .EPOLL_CTL_MOD else .EPOLL_CTL_ADD
  let status := e.fdstatus_ fd ||| flag.bits
  if fd < MAX_POLL_FDS ∧ (flag = .CB_RDWR → eventsOf status = (true, true)) then
    (epoll_ctl e.interest op fd (eventsOf status)).map fun interest =>
      ⟨Function.update e.fdstatus_ fd status, interest⟩
  else none

def EPollAio.unwatch_fd (e : EPollAio) (fd : ℕ) (flag : poll_flag) : Option (EPollAio × Bool) :=
  let status := e.fdstatus_ fd &&& ~~~flag.bits
  let op := if status ≠ 0 then .EPOLL_CTL_MOD else .EPOLL_CTL_DEL
  if fd < MAX_POLL_FDS ∧ (flag = .CB_RDWR → op = .EPOLL_CTL_DEL) then
    (epoll_ctl e.interest op fd (eventsOf status)).map fun interest =>
      (⟨Function.update e.fdstatus_ fd status, interest⟩, op = .EPOLL_CTL_DEL)
  else none

def EPollAio.is_watched (e : EPollAio) (fd : ℕ) (flag : poll_flag) : Bool :=
  e.fdstatus_ fd &&& CB_MASK = flag.bits

/-! ## The two agree -/

inductive AioCall where
  | watch (fd : ℕ) (flag : poll_flag)
  | unwatch (fd : ℕ) (flag : poll_flag)
  deriving DecidableEq, Repr

/-- A call of a `SelectAIO`, with the answers of `unwatch_fd` so far. -/
def selectCall (s : SelectAio × List Bool) : AioCall → Option (SelectAio × List Bool)
  | .watch fd flag => some (AioMgr.watch_fd s.1 fd flag, s.2)
  | .unwatch fd flag => (AioMgr.unwatch_fd s.1 fd flag).map fun r => (r.1, s.2 ++ [r.2])

/-- The same call of an `EPollAIO`. -/
def epollCall (e : EPollAio × List Bool) : AioCall → Option (EPollAio × List Bool)
  | .watch fd flag => (e.1.watch_fd fd flag).map fun e' => (e', e.2)
  | .unwatch fd flag => (e.1.unwatch_fd fd flag).map fun r => (r.1, e.2 ++ [r.2])

/-- The calls that the two answer alike: for a descriptor in range and not the pipe, and
`unwatch_fd` only for one that is watched. -/
def Proper (s : SelectAio × List Bool) : AioCall → Prop
  | .watch fd flag => fd < MAX_POLL_FDS ∧ fd ≠ s.1.pipefd_ ∧ flag ≠ .CB_NONE
  | .unwatch fd flag => fd < MAX_POLL_FDS ∧ fd ≠ s.1.pipefd_ ∧ flag ≠ .CB_NONE ∧ Watched s.1 fd

/-- The word of flags for two bits. -/
def word (r w : Bool) : BitVec 32 :=
  (if r then poll_flag.CB_RDONLY.bits else 0) ||| (if w then poll_flag.CB_WRONLY.bits else 0)

/-- Does the flag ask for reading? -/
def poll_flag.reads : poll_flag → Bool
  | .CB_RDONLY | .CB_RDWR => true
  | _ => false

def poll_flag.writes : poll_flag → Bool
  | .CB_WRONLY | .CB_RDWR => true
  | _ => false

/-- `watch_fd` adds the bits of its flag to the stored word. -/
theorem word_or_bits (r w : Bool) (flag : poll_flag) :
    word r w ||| flag.bits = word (r || flag.reads) (w || flag.writes) := by
  cases r <;> cases w <;> cases flag <;> decide

/-- `unwatch_fd` takes the bits of its flag out of the stored word. -/
theorem word_and_not_bits (r w : Bool) (flag : poll_flag) :
    word r w &&& ~~~flag.bits = word (r && !flag.reads) (w && !flag.writes) := by
  cases r <;> cases w <;> cases flag <;> decide

theorem word_ne_zero_iff (r w : Bool) : word r w ≠ 0 ↔ r = true ∨ w = true := by
  cases r <;> cases w <;> decide

theorem eventsOf_word (r w : Bool) : eventsOf (word r w) = (r, w) := by
  cases r <;> cases w <;> decide

theorem word_and_mask (r w : Bool) : word r w &&& CB_MASK = 0 := by
  cases r <;> cases w <;> decide

theorem watch_fd_self (a : SelectAio) (fd : ℕ) (hflag : flag ≠ .CB_NONE) :
    (watch_fd a fd flag).rfds_ fd = (a.rfds_ fd || flag.reads)
      ∧ (watch_fd a fd flag).wfds_ fd = (a.wfds_ fd || flag.writes) := by
  simp only [watch_fd]
  cases flag with
  | CB_NONE => exact absurd rfl hflag
  | CB_RDONLY => simp [poll_flag.reads, poll_flag.writes]
  | CB_WRONLY => simp [poll_flag.reads, poll_flag.writes]
  | CB_RDWR => simp [poll_flag.reads, poll_flag.writes]

theorem watch_fd_of_ne (a : SelectAio) {fd fd' : ℕ} (flag : poll_flag) (hne : fd' ≠ fd) :
    (watch_fd a fd flag).rfds_ fd' = a.rfds_ fd'
      ∧ (watch_fd a fd flag).wfds_ fd' = a.wfds_ fd' := by
  simp only [watch_fd]
  constructor
  · split_ifs
    · rfl
    · exact Function.update_of_ne hne ..
  · split_ifs
    · rfl
    · exact Function.update_of_ne hne ..

theorem unwatch_fd_self {a a' : SelectAio} {fd : ℕ} {b : Bool}
    (hs : unwatch_fd a fd flag = some (a', b)) :
    a'.rfds_ fd = (a.rfds_ fd && !flag.reads) ∧ a'.wfds_ fd = (a.wfds_ fd && !flag.writes) := by
  cases flag with
  | CB_NONE => cases hs
  | CB_RDONLY =>
    cases hs
    simp [poll_flag.reads, poll_flag.writes]
  | CB_WRONLY =>
    cases hs
    simp [poll_flag.reads, poll_flag.writes]
  | CB_RDWR =>
    cases hs
    simp [poll_flag.reads, poll_flag.writes]

/-- The two keep the same descriptors. -/
structure Agree (s : SelectAio) (e : EPollAio) : Prop where
  status : ∀ fd, fd ≠ s.pipefd_ → e.fdstatus_ fd = word (s.rfds_ fd) (s.wfds_ fd)
  interest : ∀ fd, fd ≠ s.pipefd_ → e.interest fd
    = if Watched s fd then some (s.rfds_ fd, s.wfds_ fd) else none

theorem agree_new (pipefd_ : ℕ) : Agree (.new pipefd_) .new := by
  have hno : ∀ fd, fd ≠ pipefd_ → decide (fd = pipefd_) = false := fun fd hfd =>
    decide_eq_false hfd
  refine ⟨fun fd hfd => ?_, fun fd hfd => ?_⟩
  · show 0 = word (decide (fd = pipefd_)) false
    rw [hno fd hfd]
    rfl
  · rw [if_neg]
    · rfl
    · rintro (hr | hw)
      · exact hfd (of_decide_eq_true hr)
      · cases hw

variable {e : EPollAio} {s : SelectAio}

/-- The word of flags is not 0 where the descriptor is watched. -/
theorem Agree.status_ne_zero (h : Agree s e) {fd : ℕ}
    (hfd : fd ≠ s.pipefd_) : e.fdstatus_ fd ≠ 0 ↔ Watched s fd := by
  rw [h.status fd hfd]
  exact word_ne_zero_iff _ _

/-- The kernel takes the change. -/
theorem Agree.epoll_ctl_watch (h : Agree s e) {fd : ℕ} (hfd : fd ≠ s.pipefd_) (ev : Bool × Bool) :
    epoll_ctl e.interest (if e.fdstatus_ fd ≠ 0 then .EPOLL_CTL_MOD else .EPOLL_CTL_ADD) fd ev
      = some (Function.update e.interest fd (some ev)) := by
  have hint := h.interest fd hfd
  by_cases hw : Watched s fd
  · rw [if_pos hw] at hint
    rw [if_pos ((h.status_ne_zero hfd).mpr hw)]
    simp only [epoll_ctl, hint]
  · rw [if_neg hw] at hint
    rw [if_neg (fun hne => hw ((h.status_ne_zero hfd).mp hne))]
    simp only [epoll_ctl, hint]

/-- Watching keeps both managers in agreement. -/
theorem agree_watch (h : Agree s e) {fd : ℕ}
    (hlt : fd < MAX_POLL_FDS) (hfd : fd ≠ s.pipefd_) (hflag : flag ≠ .CB_NONE) :
    ∃ e', e.watch_fd fd flag = some e' ∧ Agree (watch_fd s fd flag) e' := by
  have hstatus : e.fdstatus_ fd ||| flag.bits
      = word (s.rfds_ fd || flag.reads) (s.wfds_ fd || flag.writes) := by
    rw [h.status fd hfd]
    exact word_or_bits ..
  obtain ⟨hr, hw⟩ := watch_fd_self s fd hflag
  refine ⟨⟨Function.update e.fdstatus_ fd (e.fdstatus_ fd ||| flag.bits),
    Function.update e.interest fd (some (eventsOf (e.fdstatus_ fd ||| flag.bits)))⟩, ?_, ?_⟩
  · unfold EPollAio.watch_fd
    rw [if_pos, h.epoll_ctl_watch hfd]
    · rfl
    · refine ⟨hlt, fun hrdwr => ?_⟩
      rw [hstatus, eventsOf_word, hrdwr]
      simp [poll_flag.reads, poll_flag.writes]
  · refine ⟨fun fd' hfd' => ?_, fun fd' hfd' => ?_⟩
    · by_cases heq : fd' = fd
      · subst heq
        rw [hr, hw, ← hstatus]
        exact Function.update_self ..
      · obtain ⟨hr', hw'⟩ := watch_fd_of_ne s flag heq
        rw [hr', hw', ← h.status fd' hfd']
        exact Function.update_of_ne heq ..
    · by_cases heq : fd' = fd
      · subst heq
        rw [if_pos (watched_watch_fd_self s fd' flag), hr, hw, ← eventsOf_word, ← hstatus]
        exact Function.update_self ..
      · obtain ⟨hr', hw'⟩ := watch_fd_of_ne s flag heq
        have hiff : Watched s fd' ↔ Watched (watch_fd s fd flag) fd' := by
          rw [Watched, Watched, hr', hw']
        rw [hr', hw', ← if_congr hiff rfl rfl]
        exact (Function.update_of_ne heq ..).trans (h.interest fd' hfd')

/-- Unwatching a watched descriptor keeps both in agreement, and they answer the same. -/
theorem agree_unwatch {s s' : SelectAio} {fd : ℕ} {b : Bool}
    (h : Agree s e) (hlt : fd < MAX_POLL_FDS) (hfd : fd ≠ s.pipefd_) (hwatched : Watched s fd)
    (hs : unwatch_fd s fd flag = some (s', b)) :
    ∃ e', e.unwatch_fd fd flag = some (e', b) ∧ Agree s' e' := by
  have hstatus : e.fdstatus_ fd &&& ~~~flag.bits = word (s'.rfds_ fd) (s'.wfds_ fd) := by
    obtain ⟨hr, hw⟩ := unwatch_fd_self hs
    rw [h.status fd hfd, hr, hw]
    exact word_and_not_bits ..
  obtain ⟨hsame, -, hboth, hb⟩ := unwatch_fd_sets hs
  have hpipe := (unwatch_fd_rest hs).1
  have hint : e.interest fd = some (s.rfds_ fd, s.wfds_ fd) := by
    rw [h.interest fd hfd, if_pos hwatched]
  have hne : (e.fdstatus_ fd &&& ~~~flag.bits ≠ 0) ↔ Watched s' fd := by
    rw [hstatus]
    exact word_ne_zero_iff _ _
  refine ⟨⟨Function.update e.fdstatus_ fd (e.fdstatus_ fd &&& ~~~flag.bits),
    Function.update e.interest fd (if Watched s' fd then some (s'.rfds_ fd, s'.wfds_ fd)
      else none)⟩, ?_, ?_⟩
  · unfold EPollAio.unwatch_fd
    by_cases hw : Watched s' fd
    · have hrdwr : flag ≠ .CB_RDWR := by
        intro heq
        obtain ⟨hr', hw'⟩ := hboth heq
        rw [Watched, hr', hw'] at hw
        exact hw.elim Bool.noConfusion Bool.noConfusion
      have hfalse : b = false := Bool.eq_false_iff.mpr fun hbt => hb.mp hbt hw
      simp only [if_pos (hne.mpr hw), epoll_ctl, hint, hfalse, if_pos hw]
      rw [if_pos ⟨hlt, fun heq => absurd heq hrdwr⟩, hstatus, eventsOf_word]
      rfl
    · have htrue : b = true := hb.mpr hw
      simp only [if_neg (fun hz => hw (hne.mp hz)), epoll_ctl, hint, htrue, if_neg hw]
      rw [if_pos ⟨hlt, fun _ => trivial⟩]
      rfl
  · refine ⟨fun fd' hfd' => ?_, fun fd' hfd' => ?_⟩
    · rw [hpipe] at hfd'
      by_cases heq : fd' = fd
      · subst heq
        rw [← hstatus]
        exact Function.update_self ..
      · obtain ⟨hr', hw'⟩ := hsame fd' heq
        rw [hr', hw', ← h.status fd' hfd']
        exact Function.update_of_ne heq ..
    · rw [hpipe] at hfd'
      by_cases heq : fd' = fd
      · subst heq
        exact Function.update_self ..
      · obtain ⟨hr', hw'⟩ := hsame fd' heq
        have hiff : Watched s fd' ↔ Watched s' fd' := by
          rw [Watched, Watched, hr', hw']
        rw [hr', hw', ← if_congr hiff rfl rfl]
        exact (Function.update_of_ne heq ..).trans (h.interest fd' hfd')

/-- One call. -/
theorem agree_call {s s' : SelectAio × List Bool} {a : AioCall} (h : Agree s.1 e)
    (hok : Proper s a) (hs : selectCall s a = some s') :
    s'.1.pipefd_ = s.1.pipefd_
      ∧ ∃ e', epollCall (e, s.2) a = some (e', s'.2) ∧ Agree s'.1 e' := by
  cases a with
  | watch fd flag =>
    obtain ⟨hlt, hfd, hflag⟩ := hok
    obtain rfl := Option.some.inj hs
    obtain ⟨e', he', hagree⟩ := agree_watch h hlt hfd hflag
    exact ⟨rfl, e', by simp only [epollCall, he', Option.map_some], hagree⟩
  | unwatch fd flag =>
    obtain ⟨hlt, hfd, -, hwatched⟩ := hok
    obtain ⟨⟨s₁, b⟩, hunwatch, rfl⟩ := Option.map_eq_some_iff.mp hs
    obtain ⟨e', he', hagree⟩ := agree_unwatch h hlt hfd hwatched hunwatch
    refine ⟨(unwatch_fd_rest hunwatch).1, e', ?_, hagree⟩
    simp only [epollCall, he', Option.map_some]

/-- Any number of calls. -/
theorem agree_run {s s' : SelectAio × List Bool} {calls : List AioCall}
    (h : Agree s.1 e) (hok : Steps.RunMeets selectCall Proper s calls)
    (hrun : Steps.run selectCall s calls = some s') :
    s'.1.pipefd_ = s.1.pipefd_
      ∧ ∃ e', Steps.run epollCall (e, s.2) calls = some (e', s'.2) ∧ Agree s'.1 e' := by
  induction calls generalizing s e with
  | nil =>
    obtain rfl := Option.some.inj hrun
    exact ⟨rfl, e, rfl, h⟩
  | cons a calls ih =>
    obtain ⟨s₁, hs₁, hrest⟩ := Steps.run_cons_eq_some.mp hrun
    obtain ⟨hpipe, e₁, he₁, hagree⟩ := agree_call h hok.1 hs₁
    obtain ⟨hpipe', e', he', hagree'⟩ := ih hagree (hok.2 s₁ hs₁) hrest
    exact ⟨hpipe'.trans hpipe, e', Steps.run_cons_eq_some.mpr ⟨_, he₁, he'⟩, hagree'⟩

/-- **`EPollAIO` does what `SelectAIO` does**, for every sequence of proper calls, which
watch and unwatch descriptors other than the pipe, for reading, writing or both, and
unwatch only what is watched: none of its `VERIFY`s fails, it gives the same answers and
it watches the same descriptors, other than the pipe, for the same events. Only its
`is_watched` is of no use: it masks out the very bits it asks for, and says no for each of
`CB_RDONLY`, `CB_WRONLY` and `CB_RDWR`. -/
theorem epoll_agrees_with_select {pipefd_ : ℕ} {calls : List AioCall} {s : SelectAio × List Bool}
    (hrun : Steps.run selectCall (.new pipefd_, []) calls = some s)
    (hok : Steps.RunMeets selectCall Proper (.new pipefd_, []) calls) :
    ∃ e, Steps.run epollCall (.new, []) calls = some (e, s.2)
      ∧ (∀ fd, fd ≠ pipefd_ → e.interest fd
          = if Watched s.1 fd then some (s.1.rfds_ fd, s.1.wfds_ fd) else none)
      ∧ ∀ fd flag, fd ≠ pipefd_ → flag ≠ .CB_NONE → e.is_watched fd flag = false := by
  obtain ⟨hpipe, e, he, hagree⟩ := agree_run (agree_new pipefd_) hok hrun
  have hpipe' : s.1.pipefd_ = pipefd_ := hpipe
  refine ⟨e, he, fun fd hfd => hagree.interest fd (hpipe' ▸ hfd), fun fd flag hfd hflag => ?_⟩
  have hzero : e.fdstatus_ fd &&& CB_MASK = 0 := by
    rw [hagree.status fd (hpipe' ▸ hfd)]
    exact word_and_mask _ _
  refine decide_eq_false fun heq => ?_
  rw [hzero] at heq
  cases flag with
  | CB_NONE => exact hflag rfl
  | CB_RDONLY | CB_WRONLY | CB_RDWR => exact absurd heq (by decide)

/-- A descriptor is watched for reading, then for writing as well, and given up in two
steps. -/
def twoSteps : List AioCall :=
  [.watch 9 .CB_RDONLY, .watch 9 .CB_WRONLY, .unwatch 9 .CB_WRONLY, .watch 7 .CB_RDWR,
    .unwatch 9 .CB_RDONLY]

instance decidableProper (s : SelectAio × List Bool) : (a : AioCall) → Decidable (Proper s a)
  | .watch fd flag =>
    inferInstanceAs (Decidable (fd < MAX_POLL_FDS ∧ fd ≠ s.1.pipefd_ ∧ flag ≠ .CB_NONE))
  | .unwatch fd flag =>
    inferInstanceAs (Decidable (fd < MAX_POLL_FDS ∧ fd ≠ s.1.pipefd_ ∧ flag ≠ .CB_NONE
      ∧ Watched s.1 fd))

theorem epoll_agrees_with_select_twoSteps :
    ∃ e, Steps.run epollCall (.new, []) twoSteps = some (e, [false, true])
      ∧ e.is_watched 7 .CB_RDWR = false := by
  have hex : (Steps.run selectCall (.new 4, []) twoSteps).map (fun s => s.2)
      = some [false, true] := by decide
  obtain ⟨s, hs, hanswers⟩ := Steps.exists_run hex
  obtain ⟨e, he, -, hno⟩ := epoll_agrees_with_select hs (by decide)
  exact ⟨e, hanswers ▸ he, hno 7 .CB_RDWR (by decide) (by decide)⟩

end Yfs.AioMgr
