/-
The bounded queue of the RPC library (`rpc/fifo.h`), used by any number of threads.

`enq` and `deq` are calls of a monitor: their loops test the queue with the mutex in
hand, wait, and test again. `enq` waits while the queue is full, unless it is told not
to block; `deq` waits while it is empty. Each signals one sleeper of the other kind. A
queue made with limit 0 has no limit, and no `enq` waits for space.
-/
import Yfs.Monitor

set_option autoImplicit false

namespace Yfs.Fifo

open Monitor

/-! ## The queue -/

structure fifo (T : Type) where
  q_ : List T
  /-- The limit, 0 for none. -/
  max_ : ℕ
  /-- What was put into the queue, oldest first. -/
  enqueued : List T
  /-- What was taken from it, oldest first. -/
  dequeued : List T
  deriving DecidableEq, Repr

def fifo.new (T : Type) (limit : ℕ) : fifo T := ⟨[], limit, [], []⟩

/-- The condition variables. -/
inductive Cond where
  | non_empty_c_ | has_space_c_
  deriving DecidableEq, Repr

inductive Op (T : Type) where
  | enq (e : T) (blocking : Bool)
  | deq
  | size
  deriving DecidableEq, Repr

inductive Ret (T : Type) where
  | enq (ok : Bool)
  | deq (e : T)
  /-- `size` returns a `bool`. -/
  | size (b : Bool)
  deriving DecidableEq, Repr

variable {T : Type}

/-- The body of the loop of `enq`. -/
def enq (f : fifo T) (e : T) (blocking : Bool) : Outcome (fifo T) (Op T) Cond (Ret T) :=
  if f.max_ = 0 ∨ f.q_.length < f.max_ then
    .done { f with q_ := f.q_ ++ [e], enqueued := f.enqueued ++ [e] } (.enq true)
      (.one .non_empty_c_)
  else if blocking then .wait .has_space_c_ f (.enq e blocking)
  else .done f (.enq false) .nobody

/-- The body of the loop of `deq`. -/
def deq (f : fifo T) : Outcome (fifo T) (Op T) Cond (Ret T) :=
  match f.q_ with
  | [] => .wait .non_empty_c_ f .deq
  | e :: q =>
    .done { f with q_ := q, dequeued := f.dequeued ++ [e] } (.deq e)
      (if f.max_ ≠ 0 ∧ q.length < f.max_ then .one .has_space_c_ else .nobody)

/-- What a call does with the mutex in hand. -/
def body : Op T → fifo T → Outcome (fifo T) (Op T) Cond (Ret T)
  | .enq e blocking, f => enq f e blocking
  | .deq, f => deq f
  | .size, f => .done f (.size (f.q_.length ≠ 0)) .nobody

/-- A queue and the threads that use it. -/
abbrev Users (T : Type) := State (fifo T) (Op T) Cond (Ret T)

/-! ## What a call does -/

/-- **What a call that returns does to the queue.** -/
theorem body_done {op : Op T} {f f' : fifo T} {r : Ret T} {wk : Wake Cond}
    (h : body op f = .done f' r wk) :
    (∃ e b, op = .enq e b ∧ (f.max_ = 0 ∨ f.q_.length < f.max_) ∧ r = .enq true
        ∧ wk = .one .non_empty_c_
        ∧ f' = { f with q_ := f.q_ ++ [e], enqueued := f.enqueued ++ [e] })
      ∨ (∃ e, op = .enq e false ∧ f.max_ ≠ 0 ∧ f.max_ ≤ f.q_.length ∧ r = .enq false
        ∧ wk = .nobody ∧ f' = f)
      ∨ (∃ e q, op = .deq ∧ f.q_ = e :: q ∧ r = .deq e
        ∧ wk = (if f.max_ ≠ 0 ∧ q.length < f.max_ then .one .has_space_c_ else .nobody)
        ∧ f' = { f with q_ := q, dequeued := f.dequeued ++ [e] })
      ∨ (op = .size ∧ r = .size (f.q_.length ≠ 0) ∧ wk = .nobody ∧ f' = f) := by
  cases op with
  | enq e b =>
    simp only [body, enq] at h
    split at h
    · next hspace =>
      cases h
      exact .inl ⟨e, b, rfl, hspace, rfl, rfl, rfl⟩
    · next hfull =>
      rw [not_or, Nat.not_lt] at hfull
      cases b with
      | true => cases h
      | false =>
        cases h
        exact .inr (.inl ⟨e, rfl, hfull.1, hfull.2, rfl, rfl, rfl⟩)
  | deq =>
    simp only [body, deq] at h
    split at h
    · cases h
    · next e q hq =>
      cases h
      exact .inr (.inr (.inl ⟨e, q, rfl, hq, rfl, rfl, rfl⟩))
  | size =>
    cases h
    exact .inr (.inr (.inr ⟨rfl, rfl, rfl, rfl⟩))

/-- **When a call waits.** -/
theorem body_wait {op op' : Op T} {f f' : fifo T} {c : Cond} (h : body op f = .wait c f' op') :
    f' = f ∧ op' = op
      ∧ ((∃ e, op = .enq e true ∧ c = .has_space_c_ ∧ f.max_ ≠ 0 ∧ f.max_ ≤ f.q_.length)
        ∨ (op = .deq ∧ c = .non_empty_c_ ∧ f.q_ = [])) := by
  cases op with
  | enq e b =>
    simp only [body, enq] at h
    split at h
    · cases h
    · next hfull =>
      rw [not_or, Nat.not_lt] at hfull
      cases b with
      | true =>
        cases h
        exact ⟨rfl, rfl, .inl ⟨e, rfl, rfl, hfull.1, hfull.2⟩⟩
      | false => cases h
  | deq =>
    simp only [body, deq] at h
    split at h
    · next hq =>
      cases h
      exact ⟨rfl, rfl, .inr ⟨rfl, rfl, hq⟩⟩
    · cases h
  | size => cases h

/-! ## Order and bound -/

/-- Nothing is lost, doubled or reordered, and the limit holds. -/
structure InOrder (f : fifo T) : Prop where
  history : f.enqueued = f.dequeued ++ f.q_
  bound : f.max_ ≠ 0 → f.q_.length ≤ f.max_

theorem inOrder_new (limit : ℕ) : InOrder (fifo.new T limit) :=
  ⟨rfl, fun _ => Nat.zero_le _⟩

theorem inOrder_done {op : Op T} {f f' : fifo T} {r : Ret T} {wk : Wake Cond}
    (hf : InOrder f) (h : body op f = .done f' r wk) : InOrder f' ∧ f'.max_ = f.max_ := by
  obtain ⟨e, b, -, hspace, -, -, rfl⟩ | ⟨e, -, -, -, -, -, rfl⟩ | ⟨e, q, -, hq, -, -, rfl⟩
    | ⟨-, -, -, rfl⟩ := body_done h
  · refine ⟨⟨?_, fun hmax => ?_⟩, rfl⟩
    · show f.enqueued ++ [e] = f.dequeued ++ (f.q_ ++ [e])
      rw [hf.history, List.append_assoc]
    · show (f.q_ ++ [e]).length ≤ f.max_
      rw [List.length_append, List.length_singleton]
      exact Nat.succ_le_of_lt (hspace.resolve_left hmax)
  · exact ⟨hf, rfl⟩
  · refine ⟨⟨?_, fun hmax => ?_⟩, rfl⟩
    · show f.enqueued = f.dequeued ++ [e] ++ q
      rw [hf.history, hq, List.append_assoc]
      rfl
    · have hle := hf.bound hmax
      rw [hq, List.length_cons] at hle
      exact Nat.le_of_succ_le hle
  · exact ⟨hf, rfl⟩

theorem inOrder_step {s s' : Users T} {a : Act (Op T)} (h : InOrder s.shared)
    (hstep : step body s a = some s') : InOrder s'.shared ∧ s'.shared.max_ = s.shared.max_ := by
  obtain ⟨t, op, th, -, -, -, rfl⟩ | ⟨t, d, op, -, -, rfl⟩
    | ⟨t, w, op, d, sh, op', -, -, hbody, rfl⟩ | ⟨t, w, op, sh, r, wk, -, -, hbody, hsh, -⟩ :=
    step_cases hstep
  · exact ⟨h, rfl⟩
  · exact ⟨h, rfl⟩
  · obtain ⟨rfl, -⟩ := body_wait hbody
    exact ⟨h, rfl⟩
  · subst hsh
    exact inOrder_done h hbody

/-! ## Nobody sleeps who could go on -/

def isEnq : Op T → Bool
  | .enq _ _ => true
  | _ => false

def isDeq : Op T → Bool
  | .deq => true
  | _ => false

/-- How many elements could be put into a queue with a limit. -/
def room (f : fifo T) : ℕ := if f.max_ = 0 then 0 else f.max_ - f.q_.length

theorem signalled_non_empty :
    Signalled (body (T := T)) isDeq .non_empty_c_ (fun f => f.q_.length) := by
  refine ⟨?_, ?_, ?_, ?_⟩
  · intro op f c f' op' hk h
    obtain ⟨rfl, rfl, ⟨e, rfl, -⟩ | ⟨rfl, rfl, hq⟩⟩ := body_wait h
    · cases hk
    · exact ⟨rfl, by rw [hq]; rfl, rfl⟩
  · intro op f f' r wk hk h
    obtain ⟨e, b, rfl, -⟩ | ⟨e, rfl, -⟩ | ⟨e, q, rfl, hq, -, -, rfl⟩ | ⟨rfl, -⟩ := body_done h
    · cases hk
    · cases hk
    · show q.length ≤ f.q_.length - 1
      rw [hq, List.length_cons]
      exact Nat.le_refl _
    · cases hk
  · intro op f c f' op' hk h
    obtain ⟨rfl, rfl, ⟨e, rfl, rfl, -⟩ | ⟨rfl, -⟩⟩ := body_wait h
    · exact ⟨Cond.noConfusion, Nat.le_refl _, rfl⟩
    · cases hk
  · intro op f f' r wk hk h
    obtain ⟨e, b, rfl, -, -, rfl, rfl⟩ | ⟨e, rfl, -, -, -, -, rfl⟩ | ⟨e, q, rfl, -⟩
      | ⟨rfl, -, -, rfl⟩ := body_done h
    · refine .inr ⟨?_, rfl⟩
      show (f.q_ ++ [e]).length ≤ f.q_.length + 1
      exact Nat.le_of_eq List.length_append
    · exact .inl (Nat.le_refl _)
    · cases hk
    · exact .inl (Nat.le_refl _)

theorem signalled_has_space : Signalled (body (T := T)) isEnq .has_space_c_ room := by
  refine ⟨?_, ?_, ?_, ?_⟩
  · intro op f c f' op' hk h
    obtain ⟨rfl, rfl, ⟨e, rfl, rfl, hmax, hfull⟩ | ⟨rfl, -⟩⟩ := body_wait h
    · refine ⟨rfl, ?_, rfl⟩
      rw [room, if_neg hmax]
      omega
    · cases hk
  · intro op f f' r wk hk h
    obtain ⟨e, b, rfl, hspace, -, -, rfl⟩ | ⟨e, rfl, hmax, hfull, -, -, rfl⟩ | ⟨e, q, rfl, -⟩
      | ⟨rfl, -⟩ := body_done h
    · simp only [room, List.length_append, List.length_singleton]
      split <;> omega
    · rw [room, if_neg hmax]
      omega
    · cases hk
    · cases hk
  · intro op f c f' op' hk h
    obtain ⟨rfl, rfl, ⟨e, rfl, -⟩ | ⟨rfl, rfl, -⟩⟩ := body_wait h
    · cases hk
    · exact ⟨Cond.noConfusion, Nat.le_refl _, rfl⟩
  · intro op f f' r wk hk h
    obtain ⟨e, b, rfl, -⟩ | ⟨e, rfl, -⟩ | ⟨e, q, rfl, hq, -, rfl, rfl⟩ | ⟨rfl, -, -, rfl⟩ :=
      body_done h
    · cases hk
    · cases hk
    · by_cases hmax : f.max_ ≠ 0 ∧ q.length < f.max_
      · refine .inr ⟨?_, if_pos hmax⟩
        simp only [room, if_neg hmax.1, hq, List.length_cons]
        omega
      · refine .inl ?_
        simp only [room]
        split <;> omega
    · exact .inl (Nat.le_refl _)

/-- A queue with its threads, none of which has made a call. -/
def unused (T : Type) (limit n : ℕ) : Users T := ⟨fifo.new T limit, List.replicate n .idle⟩

/-- What holds whatever the threads do. -/
structure Sound (limit : ℕ) (s : Users T) : Prop where
  inOrder : InOrder s.shared
  max : s.shared.max_ = limit
  readers : Served isDeq .non_empty_c_ (fun f => f.q_.length) s
  writers : Served isEnq .has_space_c_ room s
  /-- Without a limit nobody waits for space. -/
  limited : ∀ op, .asleep .has_space_c_ op ∈ s.threads → limit ≠ 0

theorem sound_unused (limit n : ℕ) : Sound limit (unused T limit n) := by
  have hidle : ∀ th ∈ (unused T limit n).threads, ∀ c op, th ≠ .asleep c op := by
    intro th hth c op
    rw [(List.mem_replicate.mp hth).2]
    exact fun h => by cases h
  exact ⟨inOrder_new limit, rfl, served_of_awake hidle, served_of_awake hidle,
    fun op hmem => absurd rfl (hidle _ hmem _ op)⟩

theorem sound_step {limit : ℕ} {s s' : Users T} {a : Act (Op T)} (h : Sound limit s)
    (hstep : step body s a = some s') : Sound limit s' := by
  obtain ⟨horder, hmax⟩ := inOrder_step h.inOrder hstep
  refine ⟨horder, hmax.trans h.max, served_step signalled_non_empty h.readers hstep,
    served_step signalled_has_space h.writers hstep, fun op hmem => ?_⟩
  rcases step_asleep hstep hmem with hold | ⟨op₀, hbody⟩
  · exact h.limited op hold
  · obtain ⟨-, -, ⟨e, -, -, hne, -⟩ | ⟨-, hc, -⟩⟩ := body_wait hbody
    · rw [← h.max]
      exact hne
    · cases hc

/-! ## What goes in and what comes out -/

/-- The element a call has put into the queue, told by the call and its answer. -/
def put : Op T → Ret T → Option T
  | .enq e _, .enq true => some e
  | _, _ => none

/-- The element a call has handed out. -/
def taken : Op T → Ret T → Option T
  | _, .deq e => some e
  | _, _ => none

/-- The elements of the calls of `enq` that answered true, in the order of their returns. -/
def puts (log : List (ℕ × Op T × Ret T)) : List T := log.filterMap fun x => put x.2.1 x.2.2

/-- The elements that the calls of `deq` handed out, in the order of their returns. -/
def takes (log : List (ℕ × Op T × Ret T)) : List T := log.filterMap fun x => taken x.2.1 x.2.2

/-- `enqueued` is what the callers of `enq` know to be in: it grows exactly when an `enq`
answers true, by the element of that call. -/
theorem enqueued_run {s s' : Users T} {as : List (Act (Op T))}
    (hrun : Steps.run (step body) s as = some s') :
    s'.shared.enqueued = s.shared.enqueued ++ puts (returns body s as) := by
  refine record_returns fifo.enqueued put ?_ ?_ hrun
  · intro op f c f' op' h
    obtain ⟨rfl, -⟩ := body_wait h
    rfl
  · intro op f f' r wk h
    obtain ⟨e, b, rfl, -, rfl, -, rfl⟩ | ⟨e, rfl, -, -, rfl, -, rfl⟩
      | ⟨e, q, rfl, -, rfl, -, rfl⟩ | ⟨rfl, rfl, -, rfl⟩ := body_done h
    · rfl
    · exact (List.append_nil _).symm
    · exact (List.append_nil _).symm
    · exact (List.append_nil _).symm

/-- `dequeued` is what the callers of `deq` were handed. -/
theorem dequeued_run {s s' : Users T} {as : List (Act (Op T))}
    (hrun : Steps.run (step body) s as = some s') :
    s'.shared.dequeued = s.shared.dequeued ++ takes (returns body s as) := by
  refine record_returns fifo.dequeued taken ?_ ?_ hrun
  · intro op f c f' op' h
    obtain ⟨rfl, -⟩ := body_wait h
    rfl
  · intro op f f' r wk h
    obtain ⟨e, b, rfl, -, rfl, -, rfl⟩ | ⟨e, rfl, -, -, rfl, -, rfl⟩
      | ⟨e, q, rfl, -, rfl, -, rfl⟩ | ⟨rfl, rfl, -, rfl⟩ := body_done h
    · exact (List.append_nil _).symm
    · exact (List.append_nil _).symm
    · rfl
    · exact (List.append_nil _).symm

/-- An `enq` that answers false was told not to block, and found the queue full. -/
theorem enq_refused {f f' : fifo T} {e : T} {b : Bool} {wk : Wake Cond}
    (h : body (.enq e b) f = .done f' (.enq false) wk) :
    b = false ∧ f.max_ ≠ 0 ∧ f.max_ ≤ f.q_.length := by
  obtain ⟨e, b, -, -, hr, -⟩ | ⟨e, hop, hmax, hfull, -⟩ | ⟨e, q, hop, -⟩ | ⟨hop, -⟩ :=
    body_done h
  · cases hr
  · cases hop
    exact ⟨rfl, hmax, hfull⟩
  · cases hop
  · cases hop

/-- **The queue.** Whatever any number of threads do with a queue, in any order and with
any spurious wakeups: what the calls of `deq` have handed out, in the order in which they
returned, and after it what is in the queue, is what the calls of `enq` that answered
true have put in, in the order in which those returned, so that nothing is lost, doubled
or reordered; the limit is kept; an `enq` is refused only by a full queue and only if it
was told not to block; and when no call is ready to go on, a `deq` that sleeps finds the
queue empty and an `enq` that sleeps finds it full. -/
theorem fifo_queue {limit n : ℕ} {as : List (Act (Op T))} {s : Users T}
    (hrun : Steps.run (step body) (unused T limit n) as = some s) :
    puts (returns body (unused T limit n) as)
        = takes (returns body (unused T limit n) as) ++ s.shared.q_
      ∧ (limit ≠ 0 → s.shared.q_.length ≤ limit)
      ∧ (∀ a t e b, returned body s a = some (t, .enq e b, .enq false) →
          b = false ∧ limit ≠ 0 ∧ s.shared.q_.length = limit)
      ∧ ((∀ th ∈ s.threads, ∀ op, th ≠ .ready op) →
          (.asleep .non_empty_c_ .deq ∈ s.threads → s.shared.q_ = [])
          ∧ ∀ e b, .asleep .has_space_c_ (.enq e b) ∈ s.threads →
              limit ≠ 0 ∧ s.shared.q_.length = limit) := by
  have hs : Sound limit s :=
    Steps.run_inv_all (fun _ _ _ h hstep => sound_step h hstep) (sound_unused limit n) hrun
  have hbound : limit ≠ 0 → s.shared.q_.length ≤ limit := by
    rw [← hs.max]
    exact hs.inOrder.bound
  have hin : s.shared.enqueued = puts (returns body (unused T limit n) as) := enqueued_run hrun
  have hout : s.shared.dequeued = takes (returns body (unused T limit n) as) := dequeued_run hrun
  refine ⟨?_, hbound, fun a t e b hret => ?_,
    fun hquiet => ⟨fun hsleeps => ?_, fun e b hsleeps => ?_⟩⟩
  · rw [← hin, ← hout]
    exact hs.inOrder.history
  · obtain ⟨f', wk, hbody⟩ := body_of_returned hret
    obtain ⟨hb, hmax, hfull⟩ := enq_refused hbody
    rw [hs.max] at hmax hfull
    exact ⟨hb, hmax, Nat.le_antisymm (hbound hmax) hfull⟩
  · exact List.length_eq_zero_iff.mp (hs.readers.quiet hquiet hsleeps)
  · have hlimit := hs.limited _ hsleeps
    have hroom := hs.writers.quiet hquiet hsleeps
    rw [room, hs.max, if_neg hlimit] at hroom
    have hle := hbound hlimit
    exact ⟨hlimit, by omega⟩

/-- A reader sleeps, a writer fills the queue of one element, a second call of the writer
sleeps, and the reader takes both elements. -/
def readerFirst : List (Act (Op ℕ)) :=
  [.call 0 .deq, .enter 0 0, .call 1 (.enq 5 true), .enter 1 0, .call 1 (.enq 6 true),
    .enter 1 0, .enter 0 1, .call 0 .deq, .enter 1 0, .enter 0 1]

theorem fifo_queue_readerFirst :
    takes (returns body (unused ℕ 1 2) readerFirst) = [5, 6]
      ∧ ∃ s, Steps.run (step body) (unused ℕ 1 2) readerFirst = some s ∧ s.shared.q_ = []
        ∧ puts (returns body (unused ℕ 1 2) readerFirst)
          = takes (returns body (unused ℕ 1 2) readerFirst) ++ s.shared.q_ := by
  have hex : (Steps.run (step body) (unused ℕ 1 2) readerFirst).map (fun s => s.shared.q_)
      = some [] := by decide
  obtain ⟨s, hs, hempty⟩ := Steps.exists_run hex
  exact ⟨by decide, s, hs, hempty, (fifo_queue hs).1⟩

end Yfs.Fifo
