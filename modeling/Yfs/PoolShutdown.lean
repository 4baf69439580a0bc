/-
The end of the thread pool (`rpc/thr_pool.cc`).

The destructor waits twice: for space in the queue, for each pill, and for each worker.
Neither wait can last for ever, provided that the jobs' functions return.
`exists_step_of_dtor` says that some thread can go on as long as the destructor has not
returned, and `rank_step` that every step but a spurious wakeup uses up some of what is
left to do.
-/
import Yfs.ThreadPool

set_option autoImplicit false

namespace Yfs.ThreadPool

open Monitor Yfs.Fifo

/-! ## What is left to do -/

def PoolAct.isSpurious : PoolAct → Bool
  | .spurious _ => true
  | _ => false

/-- How much a worker has left to do before it is at the head of its loop with nothing
more to take. -/
def Worker.rank : Worker → ℕ
  | .loop => 4
  | .taking => 2
  | .running _ => 5
  | .exited => 0

def Dtor.rank (n : ℕ) : Dtor → ℕ
  | .uncalled => 0
  | .pills k => 10 * (n - k) + 1
  | .putting k => 10 * (n - k) - 2
  | .joined => 0

/-- A bound for the steps that are left once the destructor has been called. -/
def rank (p : ThrPool) : ℕ :=
  p.dtor.rank p.nthreads_ + 5 * p.jobq_.shared.q_.length + Refs.total Worker.rank p.workers
    + p.jobq_.awake

theorem rank_enter {p : ThrPool} {t w : ℕ} {q : Users job_t} (hp : Inv p)
    (hd : p.dtor ≠ .uncalled) (h : Monitor.step body p.jobq_ (.enter t w) = some q) :
    (p.settle t q).dtor ≠ .uncalled ∧ rank (p.settle t q) + 1 ≤ rank p := by
  obtain ⟨hle, hlt⟩ := awake_enter h
  obtain ⟨hsh, hcall, heq⟩ | ⟨j, rest, hw, hq, hsh, hcall, heq⟩ | ⟨j, b, -, -, -, hun, -⟩
    | ⟨j, k, hop, -, rfl, hk, hsh, hcall, heq⟩ := enter_cases hp h
  · obtain ⟨op, hop, -⟩ := call_enter h
    have hless := hlt (by rw [hcall, hop]; exact Option.some_ne_none op)
    rw [heq]
    refine ⟨hd, ?_⟩
    simp only [rank, hsh]
    omega
  · rw [heq]
    refine ⟨hd, ?_⟩
    have hset := Refs.total_set (w := Worker.rank) hw (takeJob j)
    have htake : (takeJob j).rank ≤ 5 := by
      rw [takeJob]
      split
      · exact Nat.le_refl _
      · exact Nat.zero_le _
    simp only [rank, hsh, hq, List.length_cons]
    have htaking : Worker.taking.rank = 2 := rfl
    omega
  · exact absurd hun hd
  · rw [heq]
    refine ⟨Dtor.noConfusion, ?_⟩
    have hlt := hp.arrivals.putting k hk
    simp only [rank, hsh, hk, List.length_append, List.length_singleton, Dtor.rank]
    omega

/-- **After the destructor has been called every step brings its end nearer**, but for the
spurious wakeups. -/
theorem rank_step {p p' : ThrPool} {a : PoolAct} (hp : Inv p) (hd : p.dtor ≠ .uncalled)
    (h : step p a = some p') :
    p'.dtor ≠ .uncalled ∧ rank p' + 1 ≤ rank p + if a.isSpurious then 2 else 0 := by
  obtain ⟨i, q, rfl, hw, hq, rfl⟩ | ⟨i, j, rfl, hw, rfl⟩ | ⟨t, f, x, q, rfl, -, hun, -⟩
    | ⟨rfl, hun, -⟩ | ⟨junk, k, q, rfl, hk, hlt, hq, rfl⟩ | ⟨rfl, hn, hex, rfl⟩
    | ⟨t, w, q, rfl, hq, rfl⟩ | ⟨t, q, rfl, hq, rfl⟩ := step_cases h
  · refine ⟨hd, ?_⟩
    have hawake := awake_call hq
    have hset := Refs.total_set (w := Worker.rank) hw .taking
    simp only [rank, (call_begins hq).2.1, Worker.rank, PoolAct.isSpurious] at hset ⊢
    omega
  · refine ⟨hd, ?_⟩
    have hset := Refs.total_set (w := Worker.rank) hw .loop
    simp only [rank, Worker.rank, PoolAct.isSpurious] at hset ⊢
    omega
  · exact absurd hun hd
  · exact absurd hun hd
  · refine ⟨Dtor.noConfusion, ?_⟩
    have hawake := awake_call hq
    simp only [rank, (call_begins hq).2.1, hk, Dtor.rank, PoolAct.isSpurious]
    omega
  · refine ⟨Dtor.noConfusion, ?_⟩
    simp only [rank, hn, Dtor.rank, PoolAct.isSpurious]
    omega
  · exact rank_enter hp hd hq
  · refine ⟨hd, ?_⟩
    have hawake := awake_spurious hq
    simp only [rank, (call_spurious hq).1, PoolAct.isSpurious, if_true]
    omega

/-! ## Somebody can go on -/

/-- A thread that is ready can go on. -/
theorem exists_step_of_ready {p : ThrPool} {t : ℕ} {op : Op job_t}
    (h : p.jobq_.threads[t]? = some (.ready op)) :
    ∃ a p', a.isSpurious = false ∧ step p a = some p' := by
  obtain ⟨w, q, hq⟩ := exists_enter body h
  exact ⟨.enter t w, p.settle t q, rfl, by simp only [step, hq, Option.map_some]⟩

/-- A worker that has not exited can go on, or some thread can, unless it sleeps and the
queue is empty. -/
theorem exists_step_of_worker {p : ThrPool} (hp : Inv p) {i : ℕ} {w : Worker}
    (hw : p.workers[i]? = some w) (hne : w ≠ .exited) (hq : p.jobq_.shared.q_ ≠ []) :
    ∃ a p', a.isSpurious = false ∧ step p a = some p' := by
  have hlt := hp.worker_lt hw
  cases w with
  | loop =>
    have hnone : p.jobq_.call i = none := by
      by_contra hcall
      obtain ⟨op, hop⟩ := Option.ne_none_iff_exists'.mp hcall
      obtain ⟨-, htaking⟩ := hp.calls.only_deq hop (fun _ => by omega) (fun _ _ => by omega)
      rw [hw] at htaking
      cases htaking
    obtain ⟨q, hstep⟩ := exists_call body (Nat.lt_trans hlt hp.threads) hnone .deq
    exact ⟨.take i, _, rfl, by simp only [step, if_pos hw, hstep]; rfl⟩
  | taking =>
    have hcall := hp.calls.taking i hw
    rw [State.call] at hcall
    cases hth : p.jobq_.threads[i]? with
    | none =>
      rw [hth] at hcall
      cases hcall
    | some th =>
      rw [hth] at hcall
      cases th with
      | ready op => exact exists_step_of_ready hth
      | asleep c op =>
        by_contra hstuck
        have hquiet : ∀ th ∈ p.jobq_.threads, ∀ op, th ≠ .ready op := by
          rintro th hmem op rfl
          obtain ⟨t, ht⟩ := List.mem_iff_getElem?.mp hmem
          exact hstuck (exists_step_of_ready ht)
        obtain rfl : op = .deq := Option.some.inj hcall
        have hmem := List.mem_of_getElem? hth
        obtain rfl := (hp.sound.readers.kinds c .deq hmem).mpr rfl
        exact hq (List.length_eq_zero_iff.mp (hp.sound.readers.quiet hquiet hmem))
      | idle | returned r => cases hcall
  | running j =>
    exact ⟨.finish i, _, rfl, by simp only [step, hw]; rfl⟩
  | exited => exact absurd rfl hne

/-- As long as pills are missing or in the queue, a worker is there to take one. -/
theorem Inv.exists_worker {p : ThrPool} (hp : Inv p)
    (h : p.workers.countP (· = .exited) ≠ p.nthreads_) :
    ∃ (i : ℕ) (w : Worker), p.workers[i]? = some w ∧ w ≠ .exited := by
  by_contra hno
  refine h (hp.workers ▸ List.countP_eq_length.mpr fun w hw => decide_eq_true ?_)
  obtain ⟨i, hi⟩ := List.mem_iff_getElem?.mp hw
  by_contra hne
  exact hno ⟨i, w, hi, hne⟩

/-- The destructor that puts a pill sleeps where nobody is ready. -/
theorem Inv.putting_asleep {p : ThrPool} (hp : Inv p) {k : ℕ} (hd : p.dtor = .putting k)
    (hquiet : ∀ th ∈ p.jobq_.threads, ∀ op, th ≠ .ready op) :
    ∃ c op, .asleep c op ∈ p.jobq_.threads ∧ c = .has_space_c_ := by
  obtain ⟨op, hop⟩ := hp.calls.putting k hd
  have henq : isEnq op = true := by
    have hrole := hp.calls.roles _ op hop
    cases op with
    | enq j b => rfl
    | deq => exact absurd (hp.worker_lt hrole) (Nat.lt_irrefl _)
    | size => exact hrole.elim
  rw [State.call] at hop
  cases hth : p.jobq_.threads[p.nthreads_]? with
  | none =>
    rw [hth] at hop
    cases hop
  | some th =>
    rw [hth] at hop
    have hmem := List.mem_of_getElem? hth
    cases th with
    | ready op' => exact absurd rfl (hquiet _ hmem op')
    | asleep c op' =>
      obtain rfl : op' = op := Option.some.inj hop
      exact ⟨c, op', hmem, (hp.sound.writers.kinds c op' hmem).mpr henq⟩
    | idle | returned r => cases hop

/-- **The destructor is never stuck.** -/
theorem exists_step_of_dtor {p : ThrPool} (hp : Inv p) (hd : p.dtor ≠ .uncalled)
    (hj : p.dtor ≠ .joined) : ∃ a p', a.isSpurious = false ∧ step p a = some p' := by
  have hpills := hp.pills_eq
  cases hcase : p.dtor with
  | uncalled => exact absurd hcase hd
  | joined => exact absurd hcase hj
  | pills k =>
    rw [hcase, Dtor.count] at hpills
    by_cases hk : k < p.nthreads_
    · -- the next pill can be put
      have hnone : p.jobq_.call p.nthreads_ = none := by
        by_contra hcall
        obtain ⟨op, hop⟩ := Option.ne_none_iff_exists'.mp hcall
        obtain ⟨-, htaking⟩ := hp.calls.only_deq hop (fun _ => Nat.lt_irrefl _)
          (fun k' hk' => by rw [hcase] at hk'; cases hk')
        exact absurd (hp.worker_lt htaking) (Nat.lt_irrefl _)
      obtain ⟨q, hstep⟩ := exists_call body hp.threads hnone (.enq (pill 0) true)
      exact ⟨.put 0, _, rfl, by simp only [step, hcase, if_pos hk, hstep]; rfl⟩
    · have hle := hp.arrivals.le
      rw [hcase, Dtor.count] at hle
      have hkn : k = p.nthreads_ := by omega
      by_cases hex : p.workers.countP (· = .exited) = p.nthreads_
      · -- all workers can be joined
        rw [← hp.workers] at hex
        have hall : p.workers.all (· = .exited) = true :=
          List.all_eq_true.mpr (List.countP_eq_length.mp hex)
        exact ⟨.join, _, rfl, by simp only [step]; rw [if_pos ⟨hkn ▸ hcase, hall⟩]⟩
      · -- the pill of a worker that is left is in the queue
        obtain ⟨i, w, hw, hne⟩ := hp.exists_worker hex
        refine exists_step_of_worker hp hw hne fun hnil => hex ?_
        rw [hnil, List.countP_nil] at hpills
        omega
  | putting k =>
    have hk := hp.arrivals.putting k hcase
    rw [hcase, Dtor.count] at hpills
    obtain ⟨i, w, hw, hne⟩ := hp.exists_worker (by omega)
    by_contra hstuck
    have hquiet : ∀ th ∈ p.jobq_.threads, ∀ op, th ≠ .ready op := by
      rintro th hmem op rfl
      obtain ⟨t, ht⟩ := List.mem_iff_getElem?.mp hmem
      exact hstuck (exists_step_of_ready ht)
    -- the destructor sleeps, so the queue is full and a worker finds something to take
    obtain ⟨c, e, hmem, hc⟩ := hp.putting_asleep hcase hquiet
    have hroom := hp.sound.writers.quiet hquiet (hc ▸ hmem)
    refine hstuck (exists_step_of_worker hp hw hne fun hnil => ?_)
    rw [room, hp.sound.max, hnil, if_neg (by omega), List.length_nil] at hroom
    omega

/-- **The destructor returns.** Once it has been called, some thread can take a step other
than a spurious wakeup until it has returned; and from then on there can be only so
many steps, with two more for each spurious wakeup. -/
theorem pool_shutdown_terminates {sz callers : ℕ} {blocking : Bool} {as : List PoolAct}
    {p : ThrPool} (hrun : Steps.run step (.new sz blocking callers) as = some p)
    (hd : p.dtor ≠ .uncalled) :
    (p.dtor ≠ .joined → ∃ a p', a.isSpurious = false ∧ step p a = some p')
      ∧ ∀ bs p', Steps.run step p bs = some p' →
        bs.length ≤ rank p + 2 * bs.countP PoolAct.isSpurious := by
  have hp := inv_run hrun
  refine ⟨fun hj => exists_step_of_dtor hp hd hj, fun bs p' hbs => ?_⟩
  have hle := Steps.run_length_le (P := fun p => Inv p ∧ p.dtor ≠ .uncalled)
    (fun q a q' hq hstep => by
      obtain ⟨hd', hrank⟩ := rank_step hq.1 hq.2 hstep
      exact ⟨⟨inv_step hq.1 hstep, hd'⟩, hrank⟩) ⟨hp, hd⟩ hbs
  omega

/-- The destructor is called while a job is run and another one waits. -/
theorem pool_shutdown_terminates_twoJobs :
    ∃ p, Steps.run step (.new 1 true 1) (twoJobs.take 8) = some p ∧ p.dtor = .pills 0
      ∧ (∃ a p', a.isSpurious = false ∧ step p a = some p') := by
  have hex : (Steps.run step (.new 1 true 1) (twoJobs.take 8)).map (fun p => p.dtor)
      = some (.pills 0) := by decide
  obtain ⟨p, hp, hd⟩ := Steps.exists_run hex
  refine ⟨p, hp, hd, (pool_shutdown_terminates hp ?_).1 ?_⟩
  · rw [hd]
    exact Dtor.noConfusion
  · rw [hd]
    exact Dtor.noConfusion

end Yfs.ThreadPool
