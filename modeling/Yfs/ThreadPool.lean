/-
The thread pool (`rpc/thr_pool.cc`) on top of the queue of `Fifo`.

The workers take jobs from the queue and run them; a job without a function is a pill
that ends the worker that takes it. The destructor puts one pill for each worker into
the queue and then joins the workers. The source says when it may be called: no other
thread uses the pool any more.

The threads of the queue are numbered: the workers first, then the thread that runs
the destructor, then the callers of `addJob`. What a worker does between the return of
`deq` and the call of the job's function is its own business, so it is part of the step
in which `deq` returns. A job does not add jobs: the callers of `addJob` are none of the
workers, so a worker never waits for room in the queue that it should empty itself.

Once the destructor has returned, every job that `addJob` has accepted has been run to
its end, once (`pool_runs_every_job`).
-/
import Yfs.Fifo
import Mathlib.Data.List.Count
import Mathlib.Data.List.Perm.Basic

set_option autoImplicit false

namespace Yfs.ThreadPool

open Monitor Yfs.Fifo

/-! ## The pool -/

/-- `ThrPool::job_t`; a pill has no function. -/
structure job_t where
  f : Option ℕ
  a : ℕ
  deriving DecidableEq, Repr

/-- A thread in `do_worker`. -/
inductive Worker where
  /-- At the head of its loop. -/
  | loop
  /-- In `takeJob`. -/
  | taking
  | running (j : job_t)
  | exited
  deriving DecidableEq, Repr

/-- The destructor. -/
inductive Dtor where
  | uncalled
  /-- `k` pills have been put. -/
  | pills (k : ℕ)
  /-- In `enq` with the next pill. -/
  | putting (k : ℕ)
  | joined
  deriving DecidableEq, Repr

structure ThrPool where
  nthreads_ : ℕ
  blockadd_ : Bool
  jobq_ : Users job_t
  workers : List Worker
  dtor : Dtor
  /-- The jobs whose function has returned. -/
  finished : List job_t

/-- The constructor, for `callers` other threads. -/
def ThrPool.new (sz : ℕ) (blocking : Bool) (callers : ℕ) : ThrPool :=
  ⟨sz, blocking, unused job_t (100 * sz) (sz + 1 + callers), List.replicate sz .loop, .uncalled, []⟩

/-- The job of the destructor; the source leaves `a` uninitialised. -/
def pill (junk : ℕ) : job_t := ⟨none, junk⟩

/-- What `do_worker` does with the answer of `takeJob`. -/
def takeJob (j : job_t) : Worker := if j.f ≠ none then .running j else .exited

theorem takeJob_of_ne {j : job_t} (h : j.f ≠ none) : takeJob j = .running j := if_pos h

theorem takeJob_of_eq {j : job_t} (h : j.f = none) : takeJob j = .exited := if_neg (not_not.mpr h)

inductive PoolAct where
  /-- Worker `i` calls `takeJob`. -/
  | take (i : ℕ)
  /-- The function of worker `i`'s job returns. -/
  | finish (i : ℕ)
  /-- Caller `t` calls `addJob`. -/
  | addJob (t f a : ℕ)
  /-- `~ThrPool` is called. -/
  | destroy
  /-- The destructor puts its next pill. -/
  | put (junk : ℕ)
  /-- All workers are joined. -/
  | join
  /-- A thread takes the queue's mutex. -/
  | enter (t w : ℕ)
  | spurious (t : ℕ)
  deriving DecidableEq, Repr

/-- The pool after thread `t` has had the queue's mutex. -/
def ThrPool.settle (p : ThrPool) (t : ℕ) (q : Users job_t) : ThrPool :=
  match q.threads[t]?, p.dtor with
  | some (.returned (.deq j)), _ =>
    { p with jobq_ := q, workers := p.workers.set t (takeJob j) }
  | some (.returned (.enq _)), .putting k =>
    { p with jobq_ := q, dtor := if t = p.nthreads_ then .pills (k + 1) else .putting k }
  | _, _ => { p with jobq_ := q }

/-- One step of the pool. -/
def step (p : ThrPool) : PoolAct → Option ThrPool
  | .take i =>
    if p.workers[i]? = some .loop then
      (Monitor.step body p.jobq_ (.call i .deq)).map fun q =>
        { p with jobq_ := q, workers := p.workers.set i .taking }
    else none
  | .finish i =>
    match p.workers[i]? with
    | some (.running j) =>
      some { p with workers := p.workers.set i .loop, finished := p.finished ++ [j] }
    | _ => none
  | .addJob t f a =>
    if p.nthreads_ < t ∧ p.dtor = .uncalled then
      (Monitor.step body p.jobq_ (.call t (.enq ⟨some f, a⟩ p.blockadd_))).map fun q =>
        { p with jobq_ := q }
    else none
  | .destroy =>
    -- no other thread uses the pool
    if p.dtor = .uncalled ∧ (p.jobq_.threads.drop (p.nthreads_ + 1)).all Thread.outside then
      some { p with dtor := .pills 0 }
    else none
  | .put junk =>
    match p.dtor with
    | .pills k =>
      if k < p.nthreads_ then
        (Monitor.step body p.jobq_ (.call p.nthreads_ (.enq (pill junk) true))).map fun q =>
          { p with jobq_ := q, dtor := .putting k }
      else none
    | _ => none
  | .join =>
    if p.dtor = .pills p.nthreads_ ∧ p.workers.all (· = .exited) then
      some { p with dtor := .joined }
    else none
  | .enter t w => (Monitor.step body p.jobq_ (.enter t w)).map (p.settle t)
  | .spurious t =>
    (Monitor.step body p.jobq_ (.spurious t)).map fun q => { p with jobq_ := q }

/-- What a step does outside of the queue. -/
theorem step_cases {p p' : ThrPool} {a : PoolAct} (h : step p a = some p') :
    (∃ i q, a = .take i ∧ p.workers[i]? = some .loop
        ∧ Monitor.step body p.jobq_ (.call i .deq) = some q
        ∧ p' = { p with jobq_ := q, workers := p.workers.set i .taking })
      ∨ (∃ i j, a = .finish i ∧ p.workers[i]? = some (.running j)
        ∧ p' = { p with workers := p.workers.set i .loop, finished := p.finished ++ [j] })
      ∨ (∃ t f x q, a = .addJob t f x ∧ p.nthreads_ < t ∧ p.dtor = .uncalled
        ∧ Monitor.step body p.jobq_ (.call t (.enq ⟨some f, x⟩ p.blockadd_)) = some q
        ∧ p' = { p with jobq_ := q })
      ∨ (a = .destroy ∧ p.dtor = .uncalled
        ∧ (p.jobq_.threads.drop (p.nthreads_ + 1)).all Thread.outside = true
        ∧ p' = { p with dtor := .pills 0 })
      ∨ (∃ junk k q, a = .put junk ∧ p.dtor = .pills k ∧ k < p.nthreads_
        ∧ Monitor.step body p.jobq_ (.call p.nthreads_ (.enq (pill junk) true)) = some q
        ∧ p' = { p with jobq_ := q, dtor := .putting k })
      ∨ (a = .join ∧ p.dtor = .pills p.nthreads_ ∧ (∀ w ∈ p.workers, w = .exited)
        ∧ p' = { p with dtor := .joined })
      ∨ (∃ t w q, a = .enter t w ∧ Monitor.step body p.jobq_ (.enter t w) = some q
        ∧ p' = p.settle t q)
      ∨ (∃ t q, a = .spurious t ∧ Monitor.step body p.jobq_ (.spurious t) = some q
        ∧ p' = { p with jobq_ := q }) := by
  cases a with
  | take i =>
    simp only [step] at h
    split at h
    · next hw =>
      obtain ⟨q, hq, rfl⟩ := Option.map_eq_some_iff.mp h
      exact .inl ⟨i, q, rfl, hw, hq, rfl⟩
    · cases h
  | finish i =>
    simp only [step] at h
    split at h
    · next j hw => exact .inr (.inl ⟨i, j, rfl, hw, (Option.some.inj h).symm⟩)
    · cases h
  | addJob t f x =>
    simp only [step] at h
    split at h
    · next hc =>
      obtain ⟨q, hq, rfl⟩ := Option.map_eq_some_iff.mp h
      exact .inr (.inr (.inl ⟨t, f, x, q, rfl, hc.1, hc.2, hq, rfl⟩))
    · cases h
  | destroy =>
    simp only [step] at h
    split at h
    · next hc =>
      exact .inr (.inr (.inr (.inl ⟨rfl, hc.1, hc.2, (Option.some.inj h).symm⟩)))
    · cases h
  | put junk =>
    simp only [step] at h
    split at h
    · next k hd =>
      split at h
      · next hk =>
        obtain ⟨q, hq, rfl⟩ := Option.map_eq_some_iff.mp h
        exact .inr (.inr (.inr (.inr (.inl ⟨junk, k, q, rfl, hd, hk, hq, rfl⟩))))
      · cases h
    · cases h
  | join =>
    simp only [step] at h
    split at h
    · next hc =>
      refine .inr (.inr (.inr (.inr (.inr (.inl ⟨rfl, hc.1, ?_, (Option.some.inj h).symm⟩)))))
      intro w hw
      exact of_decide_eq_true (List.all_eq_true.mp hc.2 w hw)
    · cases h
  | enter t w =>
    obtain ⟨q, hq, rfl⟩ := Option.map_eq_some_iff.mp h
    exact .inr (.inr (.inr (.inr (.inr (.inr (.inl ⟨t, w, q, rfl, hq, rfl⟩))))))
  | spurious t =>
    obtain ⟨q, hq, rfl⟩ := Option.map_eq_some_iff.mp h
    exact .inr (.inr (.inr (.inr (.inr (.inr (.inr ⟨t, q, rfl, hq, rfl⟩))))))

/-! ## Who makes which call -/

/-- The workers take, the destructor puts pills, and the callers put jobs until the
destructor is called. -/
def Role (n : ℕ) (d : Dtor) (ws : List Worker) (t : ℕ) : Op job_t → Prop
  | .deq => ws[t]? = some .taking
  | .enq j b => (j.f ≠ none ∧ n < t ∧ d = .uncalled)
      ∨ (j.f = none ∧ b = true ∧ t = n ∧ ∃ k, d = .putting k)
  | .size => False

/-- The calls under way are those that the workers, the destructor and the callers are
in. -/
structure Calls (n : ℕ) (d : Dtor) (ws : List Worker) (call : ℕ → Option (Op job_t)) : Prop where
  roles : ∀ t op, call t = some op → Role n d ws t op
  taking : ∀ i, ws[i]? = some .taking → call i = some .deq
  putting : ∀ k, d = .putting k → ∃ op, call n = some op

section Calls

variable {n : ℕ} {d d' : Dtor} {ws : List Worker} {call : ℕ → Option (Op job_t)}

variable {t i : ℕ}

theorem role_set {w' : Worker} {op : Op job_t} (h : Role n d ws t op) (hti : t ≠ i) :
    Role n d (ws.set i w') t op := by
  cases op with
  | deq => exact (List.getElem?_set_ne (Ne.symm hti)).trans h
  | enq j b => exact h
  | size => exact h

/-- A worker that is in no call does something else. -/
theorem Calls.moves (h : Calls n d ws call) {w w' : Worker} (hw : ws[i]? = some w)
    (hne : w ≠ .taking) (hne' : w' ≠ .taking) : Calls n d (ws.set i w') call := by
  have hlt : i < ws.length := (List.getElem?_eq_some_iff.mp hw).1
  refine ⟨fun t op hop => ?_, fun t ht => ?_, h.putting⟩
  · have hrole := h.roles t op hop
    by_cases hti : t = i
    · subst hti
      cases op with
      | deq =>
        have htaking : ws[t]? = some .taking := hrole
        rw [hw] at htaking
        exact absurd (Option.some.inj htaking) hne
      | enq j b => exact hrole
      | size => exact hrole
    · exact role_set hrole hti
  · by_cases hti : t = i
    · subst hti
      rw [List.getElem?_set_self hlt] at ht
      exact absurd (Option.some.inj ht) hne'
    · rw [List.getElem?_set_ne (Ne.symm hti)] at ht
      exact h.taking t ht

/-- A worker calls `deq`. -/
theorem Calls.take (h : Calls n d ws call) {w : Worker} (hw : ws[i]? = some w)
    (hcall : call i = none) :
    Calls n d (ws.set i .taking) (Function.update call i (some .deq)) := by
  have hlt : i < ws.length := (List.getElem?_eq_some_iff.mp hw).1
  refine ⟨fun t op hop => ?_, fun t ht => ?_, fun k hk => ?_⟩
  · rcases Refs.update_eq_some hop with ⟨rfl, hop'⟩ | ⟨hti, hop'⟩
    · obtain rfl := Option.some.inj hop'
      exact List.getElem?_set_self hlt
    · exact role_set (h.roles t op hop') hti
  · by_cases hti : t = i
    · subst hti
      exact Function.update_self ..
    · rw [List.getElem?_set_ne (Ne.symm hti)] at ht
      rw [Function.update_of_ne hti]
      exact h.taking t ht
  · obtain ⟨op, hop⟩ := h.putting k hk
    refine ⟨op, ?_⟩
    rw [Function.update_of_ne ?_, hop]
    rintro rfl
    rw [hcall] at hop
    cases hop

/-- A worker's `deq` returns. -/
theorem Calls.taken (h : Calls n d ws call) {w' : Worker} (hw : ws[i]? = some .taking)
    (hn : i ≠ n) (hne' : w' ≠ .taking) : Calls n d (ws.set i w') (Function.update call i none) := by
  have hlt : i < ws.length := (List.getElem?_eq_some_iff.mp hw).1
  refine ⟨fun t op hop => ?_, fun t ht => ?_, fun k hk => ?_⟩
  · rcases Refs.update_eq_some hop with ⟨-, hop⟩ | ⟨hti, hop⟩
    · cases hop
    · exact role_set (h.roles t op hop) hti
  · by_cases hti : t = i
    · subst hti
      rw [List.getElem?_set_self hlt] at ht
      exact absurd (Option.some.inj ht) hne'
    · rw [List.getElem?_set_ne (Ne.symm hti)] at ht
      rw [Function.update_of_ne hti]
      exact h.taking t ht
  · obtain ⟨op, hop⟩ := h.putting k hk
    exact ⟨op, by rw [Function.update_of_ne (Ne.symm hn), hop]⟩

/-- A call of `enq` begins. -/
theorem Calls.enq (h : Calls n d ws call) {j : job_t} {b : Bool} (hcall : call t = none)
    (hroles : ∀ u op, call u = some op → Role n d' ws u op) (hrole : Role n d' ws t (.enq j b))
    (hput : ∀ k, d' = .putting k → t = n) :
    Calls n d' ws (Function.update call t (some (.enq j b))) := by
  refine ⟨fun u op hop => ?_, fun i hi => ?_, fun k hk => ?_⟩
  · rcases Refs.update_eq_some hop with ⟨rfl, hop'⟩ | ⟨-, hop'⟩
    · obtain rfl := Option.some.inj hop'
      exact hrole
    · exact hroles u op hop'
  · have hi' := h.taking i hi
    rw [Function.update_of_ne ?_, hi']
    rintro rfl
    rw [hcall] at hi'
    cases hi'
  · rw [hput k hk]
    exact ⟨_, Function.update_self ..⟩

/-- A call of `enq` returns. -/
theorem Calls.put (h : Calls n d ws call) {j : job_t} {b : Bool} (hcall : call t = some (.enq j b))
    (hroles : ∀ u op, u ≠ t → call u = some op → Role n d' ws u op)
    (hput : ∀ k, d' ≠ .putting k) : Calls n d' ws (Function.update call t none) := by
  refine ⟨fun u op hop => ?_, fun i hi => ?_, fun k hk => absurd hk (hput k)⟩
  · rcases Refs.update_eq_some hop with ⟨-, hop⟩ | ⟨hne, hop⟩
    · cases hop
    · exact hroles u op hne hop
  · have hi' := h.taking i hi
    rw [Function.update_of_ne ?_, hi']
    rintro rfl
    rw [hcall] at hi'
    cases hi'

/-- Only the workers are in a call, unless callers may be or the destructor is. -/
theorem Calls.only_deq (h : Calls n d ws call) {op : Op job_t} (hop : call t = some op)
    (hd : d = .uncalled → ¬ n < t) (hd' : ∀ k, d = .putting k → t ≠ n) :
    op = .deq ∧ ws[t]? = some .taking := by
  have hrole := h.roles t op hop
  cases op with
  | deq => exact ⟨rfl, hrole⟩
  | enq j b =>
    rcases hrole with ⟨-, hlt, hun⟩ | ⟨-, -, htn, k, hk⟩
    · exact absurd hlt (hd hun)
    · exact absurd htn (hd' k hk)
  | size => exact hrole.elim

/-- The destructor goes on outside of the queue. -/
theorem Calls.dtor (h : Calls n d ws call) (hd : ∀ t, d = .uncalled → n < t → call t = none)
    (hd' : ∀ k, d ≠ .putting k) (hput : ∀ k, d' ≠ .putting k) : Calls n d' ws call := by
  refine ⟨fun t op hop => ?_, h.taking, fun k hk => absurd hk (hput k)⟩
  obtain ⟨rfl, hw⟩ := h.only_deq hop (fun hun hlt => by rw [hd t hun hlt] at hop; cases hop)
    (fun k hk => absurd hk (hd' k))
  exact hw

end Calls

/-! ## What goes into the queue and what comes out -/

/-- The pills that have been put. -/
def Dtor.count (n : ℕ) : Dtor → ℕ
  | .uncalled => 0
  | .pills k => k
  | .putting k => k
  | .joined => n

/-- The job a worker runs. -/
def Worker.job : Worker → Option job_t
  | .running j => some j
  | _ => none

/-- What was put into the queue: the jobs, and behind them the pills. -/
structure Arrivals (n : ℕ) (d : Dtor) (enqueued : List job_t) : Prop where
  split : ∃ jobs pills : List job_t, enqueued = jobs ++ pills
    ∧ (∀ j ∈ jobs, j.f ≠ none) ∧ (∀ j ∈ pills, j.f = none) ∧ pills.length = d.count n
  le : d.count n ≤ n
  putting : ∀ k, d = .putting k → k < n

/-- What was taken from it: jobs that are run or have been, and the pills of those who
have left. -/
structure Departures (finished : List job_t) (ws : List Worker) (dequeued : List job_t) :
    Prop where
  ran : ∀ j, j.f ≠ none → dequeued.count j = finished.count j + Refs.refs Worker.job ws j
  pills : dequeued.countP (fun j => j.f = none) = ws.countP (· = .exited)
  jobs : ∀ j ∈ finished, j.f ≠ none

theorem Arrivals.job {n : ℕ} {enqueued : List job_t} (h : Arrivals n .uncalled enqueued)
    {j : job_t} (hj : j.f ≠ none) : Arrivals n .uncalled (enqueued ++ [j]) := by
  obtain ⟨jobs, pills, rfl, hjobs, -, hlen⟩ := h.split
  obtain rfl : pills = [] := List.length_eq_zero_iff.mp hlen
  refine ⟨⟨jobs ++ [j], [], ?_, fun x hx => ?_, List.forall_mem_nil _, rfl⟩, h.le, h.putting⟩
  · rw [List.append_nil, List.append_nil]
  · rcases List.mem_append.mp hx with hx | hx
    · exact hjobs x hx
    · rw [List.mem_singleton.mp hx]
      exact hj

theorem Arrivals.pill {n k : ℕ} {enqueued : List job_t} (h : Arrivals n (.putting k) enqueued)
    {j : job_t} (hj : j.f = none) : Arrivals n (.pills (k + 1)) (enqueued ++ [j]) := by
  obtain ⟨jobs, pills, rfl, hjobs, hpills, hlen⟩ := h.split
  refine ⟨⟨jobs, pills ++ [j], List.append_assoc .., hjobs, fun x hx => ?_, ?_⟩,
    h.putting k rfl, fun k' hk' => by cases hk'⟩
  · rcases List.mem_append.mp hx with hx | hx
    · exact hpills x hx
    · rw [List.mem_singleton.mp hx]
      exact hj
  · rw [List.length_append, hlen]
    rfl

/-- The destructor goes on without putting a pill. -/
theorem Arrivals.dtor {n : ℕ} {d d' : Dtor} {enqueued : List job_t} (h : Arrivals n d enqueued)
    (hcount : d'.count n = d.count n) (hput : ∀ k, d' = .putting k → k < n) :
    Arrivals n d' enqueued := by
  obtain ⟨jobs, pills, heq, hjobs, hpills, hlen⟩ := h.split
  exact ⟨⟨jobs, pills, heq, hjobs, hpills, hlen.trans hcount.symm⟩, hcount ▸ h.le, hput⟩

section Departures

variable {finished dequeued : List job_t} {ws : List Worker} {i : ℕ}

/-- A worker goes on, and has no job before and after. -/
theorem Departures.moves (h : Departures finished ws dequeued) {w w' : Worker}
    (hw : ws[i]? = some w) (hjob : w.job = none) (hex : w ≠ .exited) (hjob' : w'.job = none)
    (hex' : w' ≠ .exited) : Departures finished (ws.set i w') dequeued := by
  refine ⟨fun j hj => ?_, ?_, h.jobs⟩
  · have hset := Refs.refs_set (f := Worker.job) hw w' j
    rw [hjob, hjob'] at hset
    rw [h.ran j hj]
    simp only [Refs.one_none] at hset
    omega
  · have hset : (ws.set i w').countP (· = .exited) + _ = _ := Refs.countP_set_add hw w'
    rw [h.pills]
    simp only [hex, hex', decide_false, Bool.false_eq_true, if_false] at hset
    omega

/-- A worker's job is done. -/
theorem Departures.finish (h : Departures finished ws dequeued) {j : job_t}
    (hw : ws[i]? = some (.running j)) (hj : j.f ≠ none) :
    Departures (finished ++ [j]) (ws.set i .loop) dequeued := by
  refine ⟨fun j' hj' => ?_, ?_, fun j' hj' => ?_⟩
  · have hset := Refs.refs_set (f := Worker.job) hw .loop j'
    have hone : [j].count j' = Refs.one (Worker.running j).job j' := by
      rw [List.count_singleton, Refs.one]
      simp only [Worker.job, Option.some.injEq, beq_iff_eq]
    rw [h.ran j' hj', List.count_append, hone]
    have hnone : Refs.one (Worker.loop).job j' = 0 := rfl
    omega
  · have hset : (ws.set i .loop).countP (· = .exited) + _ = _ := Refs.countP_set_add hw .loop
    rw [h.pills]
    simp only [reduceCtorEq, decide_false, Bool.false_eq_true, if_false] at hset
    omega
  · rcases List.mem_append.mp hj' with hj' | hj'
    · exact h.jobs j' hj'
    · rw [List.mem_singleton.mp hj']
      exact hj

/-- A worker has taken a job, or a pill. -/
theorem Departures.taken (h : Departures finished ws dequeued) (hw : ws[i]? = some .taking)
    (j : job_t) : Departures finished (ws.set i (takeJob j)) (dequeued ++ [j]) := by
  refine ⟨fun j' hj' => ?_, ?_, h.jobs⟩
  · have hset := Refs.refs_set (f := Worker.job) hw (takeJob j) j'
    have hone : [j].count j' = Refs.one (takeJob j).job j' := by
      rw [List.count_singleton, Refs.one]
      by_cases hf : j.f = none
      · have hne : j ≠ j' := fun heq => hj' (heq ▸ hf)
        rw [takeJob_of_eq hf, if_neg (by simpa using hne)]
        rfl
      · rw [takeJob_of_ne hf]
        simp only [Worker.job, Option.some.injEq, beq_iff_eq]
    rw [List.count_append, hone, h.ran j' hj']
    have hnone : Refs.one (Worker.taking).job j' = 0 := rfl
    omega
  · have hset : (ws.set i (takeJob j)).countP (· = .exited) + _ = _ :=
      Refs.countP_set_add hw (takeJob j)
    have hex : takeJob j = .exited ↔ j.f = none := by
      by_cases hf : j.f = none
      · exact iff_of_true (takeJob_of_eq hf) hf
      · rw [takeJob_of_ne hf]
        exact iff_of_false Worker.noConfusion hf
    rw [List.countP_append, List.countP_singleton, h.pills]
    simp only [hex, reduceCtorEq, decide_false, Bool.false_eq_true, if_false,
      decide_eq_true_eq] at hset ⊢
    omega

end Departures

/-! ## The invariant -/

structure Inv (p : ThrPool) : Prop where
  sound : Sound (100 * p.nthreads_) p.jobq_
  workers : p.workers.length = p.nthreads_
  threads : p.nthreads_ < p.jobq_.threads.length
  calls : Calls p.nthreads_ p.dtor p.workers p.jobq_.call
  arrivals : Arrivals p.nthreads_ p.dtor p.jobq_.shared.enqueued
  departures : Departures p.finished p.workers p.jobq_.shared.dequeued
  running : ∀ j, .running j ∈ p.workers → j.f ≠ none
  joined : p.dtor = .joined → ∀ w ∈ p.workers, w = .exited

theorem inv_new (sz : ℕ) (blocking : Bool) (callers : ℕ) : Inv (.new sz blocking callers) := by
  have hcall : ∀ t, (ThrPool.new sz blocking callers).jobq_.call t = none := by
    intro t
    show ((List.replicate (sz + 1 + callers) Thread.idle)[t]?).bind Thread.call = none
    rw [List.getElem?_replicate]
    split <;> rfl
  have hloop : ∀ w ∈ (ThrPool.new sz blocking callers).workers, w = .loop := fun w hw =>
    (List.mem_replicate.mp hw).2
  refine ⟨sound_unused _ _, List.length_replicate, ?_, ⟨?_, ?_, ?_⟩,
    ⟨⟨[], [], rfl, ?_⟩, Nat.zero_le _, ?_⟩, ⟨?_, ?_, List.forall_mem_nil _⟩, ?_, ?_⟩
  · show sz < (List.replicate (sz + 1 + callers) _).length
    rw [List.length_replicate]
    omega
  · intro t op h
    rw [hcall t] at h
    cases h
  · intro i h
    cases hloop _ (List.mem_of_getElem? h)
  · intro k h
    cases h
  · exact ⟨List.forall_mem_nil _, List.forall_mem_nil _, rfl⟩
  · intro k h
    cases h
  · intro j _
    rw [Refs.refs_eq_zero (fun w hw => by rw [hloop w hw]; rfl) j]
    rfl
  · refine (List.countP_eq_zero.mpr fun w hw => ?_).symm
    rw [hloop w hw]
    decide
  · intro j hj
    cases hloop _ hj
  · intro h
    cases h

variable {p : ThrPool}

/-- Workers, destructor and callers are different threads. -/
theorem Inv.worker_lt (hp : Inv p) {i : ℕ} {w : Worker}
    (hw : p.workers[i]? = some w) : i < p.nthreads_ := by
  rw [← hp.workers]
  exact (List.getElem?_eq_some_iff.mp hw).1

section Settle

variable {p : ThrPool} {t : ℕ} {q : Users job_t}

theorem settle_of_call {op : Op job_t} (h : q.call t = some op) :
    p.settle t q = { p with jobq_ := q } := by
  rw [State.call] at h
  cases hth : q.threads[t]? with
  | none => simp only [ThrPool.settle, hth]
  | some th =>
    rw [hth] at h
    cases th with
    | ready op | asleep c op => simp only [ThrPool.settle, hth]
    | idle | returned r => cases h

theorem settle_deq {j : job_t} (h : q.threads[t]? = some (.returned (.deq j))) :
    p.settle t q = { p with jobq_ := q, workers := p.workers.set t (takeJob j) } := by
  simp only [ThrPool.settle, h]

theorem settle_enq {b : Bool} (h : q.threads[t]? = some (.returned (.enq b)))
    (hd : p.dtor = .uncalled) : p.settle t q = { p with jobq_ := q } := by
  simp only [ThrPool.settle, h, hd]

theorem settle_pill {b : Bool} {k : ℕ} (h : q.threads[t]? = some (.returned (.enq b)))
    (hd : p.dtor = .putting k) (ht : t = p.nthreads_) :
    p.settle t q = { p with jobq_ := q, dtor := .pills (k + 1) } := by
  simp only [ThrPool.settle, h, hd, if_pos ht]

end Settle

/-- **What happens to the pool while a thread has the queue's mutex.** -/
theorem enter_cases {t w : ℕ} {q : Users job_t} (hp : Inv p)
    (h : Monitor.step body p.jobq_ (.enter t w) = some q) :
    (q.shared = p.jobq_.shared ∧ q.call = p.jobq_.call ∧ p.settle t q = { p with jobq_ := q })
      ∨ (∃ j rest, p.workers[t]? = some .taking ∧ p.jobq_.shared.q_ = j :: rest
        ∧ q.shared = { p.jobq_.shared with
            q_ := rest, dequeued := p.jobq_.shared.dequeued ++ [j] }
        ∧ q.call = Function.update p.jobq_.call t none
        ∧ p.settle t q = { p with jobq_ := q, workers := p.workers.set t (takeJob j) })
      ∨ (∃ j b, p.jobq_.call t = some (.enq j b) ∧ j.f ≠ none ∧ p.nthreads_ < t
        ∧ p.dtor = .uncalled
        ∧ (q.shared = p.jobq_.shared ∨ q.shared = { p.jobq_.shared with
            q_ := p.jobq_.shared.q_ ++ [j], enqueued := p.jobq_.shared.enqueued ++ [j] })
        ∧ q.call = Function.update p.jobq_.call t none ∧ p.settle t q = { p with jobq_ := q })
      ∨ (∃ j k, p.jobq_.call t = some (.enq j true) ∧ j.f = none ∧ t = p.nthreads_
        ∧ p.dtor = .putting k
        ∧ q.shared = { p.jobq_.shared with
            q_ := p.jobq_.shared.q_ ++ [j], enqueued := p.jobq_.shared.enqueued ++ [j] }
        ∧ q.call = Function.update p.jobq_.call t none
        ∧ p.settle t q = { p with jobq_ := q, dtor := .pills (k + 1) }) := by
  obtain ⟨op, hop, ⟨c, op', hbody, hcall⟩ | ⟨r, wk, hbody, hcall, hret⟩⟩ := call_enter h
  · obtain ⟨hsh, rfl, -⟩ := body_wait hbody
    have hsame : q.call = p.jobq_.call := by
      rw [hcall, ← hop]
      exact Function.update_eq_self t _
    exact .inl ⟨hsh, hsame, settle_of_call (by rw [hsame, hop])⟩
  · have hrole := hp.calls.roles t op hop
    obtain ⟨e, b, rfl, -, rfl, -, hsh⟩ | ⟨e, rfl, -, -, rfl, -, hsh⟩
      | ⟨e, rest, rfl, hq, rfl, -, hsh⟩ | ⟨rfl, -⟩ := body_done hbody
    · rcases hrole with ⟨hf, hlt, hd⟩ | ⟨hf, rfl, ht, k, hk⟩
      · exact .inr (.inr (.inl ⟨e, b, hop, hf, hlt, hd, .inr hsh, hcall, settle_enq hret hd⟩))
      · exact .inr (.inr (.inr ⟨e, k, hop, hf, ht, hk, hsh, hcall, settle_pill hret hk ht⟩))
    · rcases hrole with ⟨hf, hlt, hd⟩ | ⟨-, hb, -⟩
      · exact .inr (.inr (.inl ⟨e, false, hop, hf, hlt, hd, .inl hsh, hcall, settle_enq hret hd⟩))
      · cases hb
    · exact .inr (.inl ⟨e, rest, hrole, hq, hsh, hcall, settle_deq hret⟩)
    · exact hrole.elim

/-- The workers that run a job after one worker has gone on. -/
theorem running_set (hp : Inv p) {i : ℕ} {w : Worker} (hw : ∀ j, w = .running j → j.f ≠ none) :
    ∀ j, .running j ∈ p.workers.set i w → j.f ≠ none := by
  intro j hj
  rcases List.mem_or_eq_of_mem_set hj with hj | hj
  · exact hp.running j hj
  · exact hw j hj.symm

/-- A worker goes on only before the workers are joined. -/
theorem Inv.not_joined (hp : Inv p) {i : ℕ} {w : Worker}
    (hw : p.workers[i]? = some w) (hne : w ≠ .exited) : p.dtor ≠ .joined :=
  fun hd => hne (hp.joined hd w (List.mem_of_getElem? hw))

theorem inv_enter {t w : ℕ} {q : Users job_t} (hp : Inv p)
    (h : Monitor.step body p.jobq_ (.enter t w) = some q) : Inv (p.settle t q) := by
  have hsound := sound_step hp.sound h
  have hlen : p.nthreads_ < q.threads.length := by
    rw [step_length h]
    exact hp.threads
  obtain ⟨hsh, hcall, heq⟩ | ⟨j, rest, hw, hq, hsh, hcall, heq⟩
    | ⟨j, b, hop, hf, hlt, hd, hsh, hcall, heq⟩ | ⟨j, k, hop, hf, rfl, hd, hsh, hcall, heq⟩ :=
    enter_cases hp h
  · rw [heq]
    refine ⟨hsound, hp.workers, hlen, ?_, ?_, ?_, hp.running, hp.joined⟩
    · exact hcall ▸ hp.calls
    · exact hsh ▸ hp.arrivals
    · exact hsh ▸ hp.departures
  · rw [heq]
    have htaken : takeJob j ≠ .taking := by
      rw [takeJob]
      split <;> exact Worker.noConfusion
    refine ⟨hsound, List.length_set.trans hp.workers, hlen, ?_, ?_, ?_, ?_, ?_⟩
    · show Calls p.nthreads_ p.dtor (p.workers.set t (takeJob j)) q.call
      rw [hcall]
      exact hp.calls.taken hw (Nat.ne_of_lt (hp.worker_lt hw)) htaken
    · show Arrivals _ _ q.shared.enqueued
      rw [hsh]
      exact hp.arrivals
    · show Departures _ _ q.shared.dequeued
      rw [hsh]
      exact hp.departures.taken hw j
    · refine running_set hp fun j' hj' => ?_
      by_cases hf : j.f = none
      · rw [takeJob_of_eq hf] at hj'
        cases hj'
      · rw [takeJob_of_ne hf] at hj'
        cases hj'
        exact hf
    · exact fun hd => absurd hd (hp.not_joined hw Worker.noConfusion)
  · rw [heq]
    refine ⟨hsound, hp.workers, hlen, ?_, ?_, ?_, hp.running, hp.joined⟩
    · show Calls p.nthreads_ p.dtor p.workers q.call
      rw [hcall]
      refine hp.calls.put hop (fun u op _ hu => hp.calls.roles u op hu) fun k hk => ?_
      rw [hd] at hk
      cases hk
    · show Arrivals p.nthreads_ p.dtor q.shared.enqueued
      rcases hsh with hsh | hsh
      · rw [hsh]
        exact hp.arrivals
      · rw [hsh, hd]
        exact (hd ▸ hp.arrivals).job hf
    · show Departures _ _ q.shared.dequeued
      rcases hsh with hsh | hsh
      · rw [hsh]
        exact hp.departures
      · rw [hsh]
        exact hp.departures
  · rw [heq]
    refine ⟨hsound, hp.workers, hlen, ?_, ?_, ?_, hp.running, fun hj => by cases hj⟩
    · show Calls p.nthreads_ (.pills (k + 1)) p.workers q.call
      rw [hcall]
      refine hp.calls.put hop (fun u op hne hu => ?_) fun k' hk' => by cases hk'
      obtain ⟨rfl, hw⟩ := hp.calls.only_deq hu (fun hun => by rw [hd] at hun; cases hun)
        (fun _ _ => hne)
      exact hw
    · show Arrivals p.nthreads_ (.pills (k + 1)) q.shared.enqueued
      rw [hsh]
      exact (hd ▸ hp.arrivals).pill hf
    · show Departures _ _ q.shared.dequeued
      rw [hsh]
      exact hp.departures

/-- Before the destructor is called, whoever is outside of the queue is in no call. -/
theorem call_eq_none_of_outside {t : ℕ} (ht : p.nthreads_ < t)
    (h : (p.jobq_.threads.drop (p.nthreads_ + 1)).all Thread.outside = true) :
    p.jobq_.call t = none := by
  rw [State.call]
  cases hth : p.jobq_.threads[t]? with
  | none => rfl
  | some th =>
    have hmem : th ∈ p.jobq_.threads.drop (p.nthreads_ + 1) := by
      refine List.mem_iff_getElem?.mpr ⟨t - (p.nthreads_ + 1), ?_⟩
      rw [List.getElem?_drop, ← hth]
      congr 1
      omega
    have hout := List.all_eq_true.mp h th hmem
    cases th with
    | idle | returned r => rfl
    | ready op | asleep c op => cases hout

/-- **Every step keeps the invariant.** -/
theorem inv_step {p p' : ThrPool} {a : PoolAct} (hp : Inv p) (h : step p a = some p') : Inv p' := by
  obtain ⟨i, q, -, hw, hq, rfl⟩ | ⟨i, j, -, hw, rfl⟩ | ⟨t, f, x, q, -, hlt, hd, hq, rfl⟩
    | ⟨-, hd, hout, rfl⟩ | ⟨junk, k, q, -, hd, hk, hq, rfl⟩ | ⟨-, hd, hex, rfl⟩
    | ⟨t, w, q, -, hq, rfl⟩ | ⟨t, q, -, hq, rfl⟩ := step_cases h
  · obtain ⟨hnone, hsh, hcall⟩ := call_begins hq
    refine ⟨sound_step hp.sound hq, List.length_set.trans hp.workers, ?_, ?_, ?_, ?_, ?_, ?_⟩
    · show p.nthreads_ < q.threads.length
      rw [step_length hq]
      exact hp.threads
    · show Calls p.nthreads_ p.dtor (p.workers.set i .taking) q.call
      rw [hcall]
      exact hp.calls.take hw hnone
    · exact hsh ▸ hp.arrivals
    · show Departures p.finished (p.workers.set i .taking) q.shared.dequeued
      rw [hsh]
      exact hp.departures.moves hw rfl Worker.noConfusion rfl Worker.noConfusion
    · exact running_set hp fun j hj => by cases hj
    · exact fun hd => absurd hd (hp.not_joined hw Worker.noConfusion)
  · refine ⟨hp.sound, List.length_set.trans hp.workers, hp.threads, ?_, hp.arrivals, ?_, ?_, ?_⟩
    · exact hp.calls.moves hw Worker.noConfusion Worker.noConfusion
    · exact hp.departures.finish hw (hp.running j (List.mem_of_getElem? hw))
    · exact running_set hp fun j' hj' => by cases hj'
    · exact fun hd => absurd hd (hp.not_joined hw Worker.noConfusion)
  · obtain ⟨hnone, hsh, hcall⟩ := call_begins hq
    refine ⟨sound_step hp.sound hq, hp.workers, ?_, ?_, ?_, ?_, hp.running, hp.joined⟩
    · show p.nthreads_ < q.threads.length
      rw [step_length hq]
      exact hp.threads
    · show Calls p.nthreads_ p.dtor p.workers q.call
      rw [hcall]
      refine hp.calls.enq hnone hp.calls.roles (.inl ⟨Option.some_ne_none f, hlt, hd⟩)
        fun k hk => ?_
      rw [hd] at hk
      cases hk
    · exact hsh ▸ hp.arrivals
    · exact hsh ▸ hp.departures
  · refine ⟨hp.sound, hp.workers, hp.threads, ?_, ?_, hp.departures, hp.running,
      fun hj => by cases hj⟩
    · refine hp.calls.dtor (fun t _ ht => call_eq_none_of_outside ht hout) (fun k hk => ?_)
        fun k hk => by cases hk
      rw [hd] at hk
      cases hk
    · exact hp.arrivals.dtor (by rw [hd]; rfl) fun k hk => by cases hk
  · obtain ⟨hnone, hsh, hcall⟩ := call_begins hq
    refine ⟨sound_step hp.sound hq, hp.workers, ?_, ?_, ?_, ?_, hp.running, fun hj => by cases hj⟩
    · show p.nthreads_ < q.threads.length
      rw [step_length hq]
      exact hp.threads
    · show Calls p.nthreads_ (.putting k) p.workers q.call
      rw [hcall]
      refine hp.calls.enq hnone (fun u op hu => ?_) (.inr ⟨rfl, rfl, rfl, k, rfl⟩) fun _ _ => rfl
      obtain ⟨rfl, hw⟩ := hp.calls.only_deq hu (fun hun => by rw [hd] at hun; cases hun)
        (fun k' hk' => by rw [hd] at hk'; cases hk')
      exact hw
    · show Arrivals p.nthreads_ (.putting k) q.shared.enqueued
      rw [hsh]
      refine hp.arrivals.dtor (by rw [hd]; rfl) fun k' hk' => ?_
      cases hk'
      exact hk
    · exact hsh ▸ hp.departures
  · refine ⟨hp.sound, hp.workers, hp.threads, ?_, ?_, hp.departures, hp.running, fun _ => hex⟩
    · refine hp.calls.dtor (fun t hun => by rw [hd] at hun; cases hun)
        (fun k hk => by rw [hd] at hk; cases hk) fun k hk => by cases hk
    · exact hp.arrivals.dtor (by rw [hd]; rfl) fun k hk => by cases hk
  · exact inv_enter hp hq
  · obtain ⟨hsh, hcall⟩ := call_spurious hq
    refine ⟨sound_step hp.sound hq, hp.workers, ?_, ?_, ?_, ?_, hp.running, hp.joined⟩
    · show p.nthreads_ < q.threads.length
      rw [step_length hq]
      exact hp.threads
    · exact hcall ▸ hp.calls
    · exact hsh ▸ hp.arrivals
    · exact hsh ▸ hp.departures

theorem inv_run {sz callers : ℕ} {blocking : Bool} {as : List PoolAct}
    (hrun : Steps.run step (.new sz blocking callers) as = some p) : Inv p :=
  Steps.run_inv_all (fun _ _ _ h hstep => inv_step h hstep) (inv_new sz blocking callers) hrun

theorem step_nthreads {p p' : ThrPool} {a : PoolAct} (hp : Inv p) (h : step p a = some p') :
    p'.nthreads_ = p.nthreads_ := by
  obtain ⟨i, q, -, -, -, rfl⟩ | ⟨i, j, -, -, rfl⟩ | ⟨t, f, x, q, -, -, -, -, rfl⟩
    | ⟨-, -, -, rfl⟩ | ⟨junk, k, q, -, -, -, -, rfl⟩ | ⟨-, -, -, rfl⟩
    | ⟨t, w, q, -, hq, rfl⟩ | ⟨t, q, -, -, rfl⟩ := step_cases h
  case inr.inr.inr.inr.inr.inr.inl =>
    obtain ⟨-, -, heq⟩ | ⟨_, _, -, -, -, -, heq⟩ | ⟨_, _, -, -, -, -, -, -, heq⟩
      | ⟨_, _, -, -, -, -, -, -, heq⟩ := enter_cases hp hq
    all_goals rw [heq]
  all_goals rfl

/-! ## Every job is run -/

/-- Where each accepted job is. -/
theorem Inv.count_eq (hp : Inv p) {j : job_t} (hj : j.f ≠ none) :
    p.jobq_.shared.enqueued.count j
      = p.jobq_.shared.q_.count j + Refs.refs Worker.job p.workers j + p.finished.count j := by
  rw [hp.sound.inOrder.history, List.count_append, hp.departures.ran j hj]
  omega

/-- The pills that have been put are in the queue, or have ended a worker. -/
theorem Inv.pills_eq (hp : Inv p) :
    p.dtor.count p.nthreads_
      = p.jobq_.shared.q_.countP (fun j => j.f = none) + p.workers.countP (· = .exited) := by
  obtain ⟨jobs, pills, heq, hjobs, hpills, hlen⟩ := hp.arrivals.split
  have hzero : jobs.countP (fun j => j.f = none) = 0 :=
    List.countP_eq_zero.mpr fun j hj => by simpa using hjobs j hj
  have hall : pills.countP (fun j => j.f = none) = pills.length :=
    List.countP_eq_length.mpr fun j hj => decide_eq_true (hpills j hj)
  have hhist := congrArg (List.countP fun j : job_t => decide (j.f = none))
    (heq.symm.trans hp.sound.inOrder.history)
  rw [List.countP_append, List.countP_append, hzero, hall, hp.departures.pills] at hhist
  omega

/-- With a pill behind every job, no job is in the queue without one. -/
theorem Inv.q_eq_nil (hp : Inv p) (hpill : p.dtor.count p.nthreads_ ≠ 0)
    (hno : p.jobq_.shared.q_.countP (fun j => j.f = none) = 0) : p.jobq_.shared.q_ = [] := by
  obtain ⟨jobs, pills, heq, -, hpills, hlen⟩ := hp.arrivals.split
  rcases List.eq_nil_or_concat p.jobq_.shared.q_ with hnil | ⟨rest, j, hq⟩
  · exact hnil
  · exfalso
    rcases List.eq_nil_or_concat pills with hpnil | ⟨rest', j', hps⟩
    · rw [hpnil] at hlen
      exact hpill hlen.symm
    · -- the last of the queue is the last that was put
      have hlast := heq.symm.trans hp.sound.inOrder.history
      rw [hq, hps, List.concat_eq_append, List.concat_eq_append, ← List.append_assoc,
        ← List.append_assoc] at hlast
      have hjj' : j' = j := by
        have := congrArg List.getLast? hlast
        simpa using this
      have hj : j.f = none := hjj' ▸ hpills j' (by rw [hps]; simp)
      refine List.countP_eq_zero.mp hno j ?_ (decide_eq_true hj)
      rw [hq]
      simp

/-- **Every job that was accepted is run, once.** At every moment a job that `addJob` has
put into the queue is in the queue, is being run, or has been run, as often as it was
put. When the destructor has returned, the queue is empty and the jobs that were
accepted have all been run to their end; a pool of no threads is the exception. -/
theorem pool_runs_every_job {sz callers : ℕ} {blocking : Bool} {as : List PoolAct} {p : ThrPool}
    (hrun : Steps.run step (.new sz blocking callers) as = some p) :
    (∀ j, j.f ≠ none → p.jobq_.shared.enqueued.count j
        = p.jobq_.shared.q_.count j + Refs.refs Worker.job p.workers j + p.finished.count j)
      ∧ (0 < sz → p.dtor = .joined → p.jobq_.shared.q_ = []
        ∧ p.finished.Perm (p.jobq_.shared.enqueued.filter (fun j => j.f ≠ none))) := by
  have hp := inv_run hrun
  refine ⟨fun j hj => hp.count_eq hj, fun hsz hd => ?_⟩
  have hn : p.nthreads_ = sz := by
    have hboth : Inv p ∧ p.nthreads_ = sz :=
      Steps.run_inv_all (P := fun p => Inv p ∧ p.nthreads_ = sz)
        (fun _ _ _ h hstep => ⟨inv_step h.1 hstep, (step_nthreads h.1 hstep).trans h.2⟩)
        ⟨inv_new sz blocking callers, rfl⟩ hrun
    exact hboth.2
  have hexited := hp.joined hd
  have hcount : p.workers.countP (· = .exited) = p.nthreads_ := by
    rw [← hp.workers]
    exact List.countP_eq_length.mpr fun w hw => decide_eq_true (hexited w hw)
  have hpills := hp.pills_eq
  rw [hcount, hd] at hpills
  have hput : Dtor.joined.count p.nthreads_ = p.nthreads_ := rfl
  have hnil : p.jobq_.shared.q_ = [] := by
    apply hp.q_eq_nil
    · rw [hd, hput]
      omega
    · omega
  refine ⟨hnil, List.perm_iff_count.mpr fun j => ?_⟩
  by_cases hj : j.f = none
  · rw [List.count_eq_zero.mpr fun hmem => hp.departures.jobs j hmem hj,
      List.count_eq_zero.mpr fun hmem => by simpa [hj] using List.of_mem_filter hmem]
  · rw [List.count_filter (by simpa using hj), hp.count_eq hj, hnil,
      Refs.refs_eq_zero fun w hw => by rw [hexited w hw]; rfl]
    simp

/-- One worker, two jobs, and the destructor while the second is still waiting. -/
def twoJobs : List PoolAct :=
  [.take 0, .enter 0 0, .addJob 2 7 70, .enter 2 0, .addJob 2 8 80, .enter 2 0, .enter 0 0,
    .destroy, .put 3, .enter 1 0, .finish 0, .take 0, .enter 0 0, .finish 0, .take 0, .enter 0 0,
    .join]

theorem pool_runs_every_job_twoJobs :
    ∃ p, Steps.run step (.new 1 true 1) twoJobs = some p ∧ p.dtor = .joined
      ∧ p.finished = [⟨some 7, 70⟩, ⟨some 8, 80⟩]
      ∧ p.finished.Perm (p.jobq_.shared.enqueued.filter (fun j => j.f ≠ none)) := by
  have hex : (Steps.run step (.new 1 true 1) twoJobs).map (fun p => (p.dtor, p.finished))
      = some (.joined, [⟨some 7, 70⟩, ⟨some 8, 80⟩]) := by decide
  obtain ⟨p, hp, hout⟩ := Steps.exists_run hex
  obtain ⟨hd, hfin⟩ := Prod.mk.inj hout
  exact ⟨p, hp, hd, hfin, ((pool_runs_every_job hp).2 Nat.one_pos hd).2⟩

end Yfs.ThreadPool
