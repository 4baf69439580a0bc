/-
Monitors: data under one mutex, with condition variables.

A call runs under the mutex from its start to its return, except that it may wait for
a condition variable: then the mutex is free for others, and the call goes on once it
has been woken and has the mutex again. `body` says what a call does with the mutex in
hand: it waits, with what is left to do after it is woken, or it returns, and may wake
one sleeper of a condition. A sleeper may also wake up for no reason.

The rule `served_step` says that nobody sleeps who could go on, for conditions that are
`Signalled`: as long as somebody sleeps, at least as many calls of the kind that waits are
awake as could go on. A second rule, `record_returns`, is about results: a list that the
calls keep in the shared data is the list of what they have returned.
-/
import Yfs.Steps
import Yfs.Refs

set_option autoImplicit false

namespace Monitor

variable {σ Op C R : Type}

/-! ## Calls -/

/-- Whom a call wakes when it returns. -/
inductive Wake (C : Type) where
  | nobody
  | one (c : C)
  deriving DecidableEq, Repr

/-- What a call does with the mutex in hand. -/
inductive Outcome (σ Op C R : Type) where
  /-- It waits for `c`, with `op` left to do. -/
  | wait (c : C) (s : σ) (op : Op)
  | done (s : σ) (r : R) (wake : Wake C)
  deriving DecidableEq, Repr

/-- Where a thread stands. -/
inductive Thread (Op C R : Type) where
  | idle
  /-- In a call, and ready to take the mutex. -/
  | ready (op : Op)
  | asleep (c : C) (op : Op)
  /-- The last call has returned. -/
  | returned (r : R)
  deriving DecidableEq, Repr

/-- Is the thread outside of the monitor? -/
def Thread.outside : Thread Op C R → Bool
  | .idle => true
  | .returned _ => true
  | _ => false

/-- Is the thread ready for a call of kind `kind`? -/
def Thread.readyFor (kind : Op → Bool) : Thread Op C R → Bool
  | .ready op => kind op
  | _ => false

/-- How many threads are ready for a call of kind `kind`. -/
def readies (kind : Op → Bool) (ths : List (Thread Op C R)) : ℕ := ths.countP (Thread.readyFor kind)

theorem readies_set (kind : Op → Bool) {ths : List (Thread Op C R)} {t : ℕ} {th : Thread Op C R}
    (h : ths[t]? = some th) (th' : Thread Op C R) :
    readies kind (ths.set t th') + (if th.readyFor kind then 1 else 0)
      = readies kind ths + (if th'.readyFor kind then 1 else 0) :=
  Refs.countP_set_add h th'

structure State (σ Op C R : Type) where
  shared : σ
  threads : List (Thread Op C R)
  deriving DecidableEq, Repr

inductive Act (Op : Type) where
  /-- Thread `t` makes a call. -/
  | call (t : ℕ) (op : Op)
  /-- Thread `t` takes the mutex; `w` is the sleeper it wakes, if it wakes one. -/
  | enter (t w : ℕ)
  /-- Thread `t` wakes up for no reason. -/
  | spurious (t : ℕ)
  deriving DecidableEq, Repr

section Step

variable [DecidableEq C]

def Thread.sleepsOn (c : C) : Thread Op C R → Bool
  | .asleep c' _ => c' = c
  | _ => false

/-- The threads after waking; `none` if `w` is not the one that is woken. -/
def wake (ths : List (Thread Op C R)) (w : ℕ) : Wake C → Option (List (Thread Op C R))
  | .nobody => some ths
  | .one c =>
    if ths.any (Thread.sleepsOn c) then
      match ths[w]? with
      | some (.asleep c' op) => if c' = c then some (ths.set w (.ready op)) else none
      | _ => none
    else some ths

/-- One step of a thread. -/
def step (body : Op → σ → Outcome σ Op C R) (s : State σ Op C R) :
    Act Op → Option (State σ Op C R)
  | .call t op =>
    match s.threads[t]? with
    | some th => if th.outside then some { s with threads := s.threads.set t (.ready op) } else none
    | none => none
  | .enter t w =>
    match s.threads[t]? with
    | some (.ready op) =>
      match body op s.shared with
      | .wait c sh op' => some ⟨sh, s.threads.set t (.asleep c op')⟩
      | .done sh r wk => (wake (s.threads.set t (.returned r)) w wk).map fun ths => ⟨sh, ths⟩
    | _ => none
  | .spurious t =>
    match s.threads[t]? with
    | some (.asleep _ op) => some { s with threads := s.threads.set t (.ready op) }
    | _ => none

/-- Who is awake after a call has returned. -/
def Woken (ths ths' : List (Thread Op C R)) : Wake C → Prop
  | .nobody => ths' = ths
  | .one c => ((∀ th ∈ ths, th.sleepsOn c = false) ∧ ths' = ths)
      ∨ ∃ w op, ths[w]? = some (.asleep c op) ∧ ths' = ths.set w (.ready op)

variable {ths ths' : List (Thread Op C R)}

theorem woken_of_wake {w : ℕ} {wk : Wake C}
    (h : wake ths w wk = some ths') : Woken ths ths' wk := by
  cases wk with
  | nobody => exact (Option.some.inj h).symm
  | one c =>
    simp only [wake] at h
    by_cases hany : ths.any (Thread.sleepsOn c) = true
    · rw [if_pos hany] at h
      cases hw : ths[w]? with
      | none => simp [hw] at h
      | some th =>
        cases th with
        | asleep c' op =>
          simp only [hw] at h
          split at h
          · next hc =>
            subst hc
            exact .inr ⟨w, op, hw, (Option.some.inj h).symm⟩
          · cases h
        | idle | ready op | returned r => simp [hw] at h
    · rw [if_neg hany] at h
      refine .inl ⟨fun th hth => ?_, (Option.some.inj h).symm⟩
      rw [List.any_eq_true] at hany
      exact Bool.eq_false_iff.mpr fun hs => hany ⟨th, hth, hs⟩

/-- Whoever is to be woken, there is a way to wake. -/
theorem exists_wake (ths : List (Thread Op C R)) (wk : Wake C) :
    ∃ w ths', wake ths w wk = some ths' := by
  cases wk with
  | nobody => exact ⟨0, ths, rfl⟩
  | one c =>
    by_cases hany : ths.any (Thread.sleepsOn c) = true
    · obtain ⟨th, hth, hsleeps⟩ := List.any_eq_true.mp hany
      obtain ⟨w, hw⟩ := List.mem_iff_getElem?.mp hth
      cases th with
      | asleep c' op =>
        have hc : c' = c := of_decide_eq_true hsleeps
        refine ⟨w, ths.set w (.ready op), ?_⟩
        simp only [wake, if_pos hany, hw, if_pos hc]
      | idle | ready op | returned r => cases hsleeps
    · exact ⟨0, ths, by simp only [wake, if_neg hany]⟩

variable {body : Op → σ → Outcome σ Op C R}

/-- **What a step does.** -/
theorem step_cases {s s' : State σ Op C R} {a : Act Op} (h : step body s a = some s') :
    (∃ t op th, a = .call t op ∧ s.threads[t]? = some th ∧ th.outside = true
        ∧ s' = { s with threads := s.threads.set t (.ready op) })
      ∨ (∃ t c op, a = .spurious t ∧ s.threads[t]? = some (.asleep c op)
        ∧ s' = { s with threads := s.threads.set t (.ready op) })
      ∨ (∃ t w op c sh op', a = .enter t w ∧ s.threads[t]? = some (.ready op)
        ∧ body op s.shared = .wait c sh op' ∧ s' = ⟨sh, s.threads.set t (.asleep c op')⟩)
      ∨ (∃ t w op sh r wk, a = .enter t w ∧ s.threads[t]? = some (.ready op)
        ∧ body op s.shared = .done sh r wk ∧ s'.shared = sh
        ∧ Woken (s.threads.set t (.returned r)) s'.threads wk) := by
  cases a with
  | call t op =>
    simp only [step] at h
    split at h
    · next th hth =>
      split at h
      · next hout => exact .inl ⟨t, op, th, rfl, hth, hout, (Option.some.inj h).symm⟩
      · cases h
    · cases h
  | spurious t =>
    simp only [step] at h
    split at h
    · next c op hth => exact .inr (.inl ⟨t, c, op, rfl, hth, (Option.some.inj h).symm⟩)
    · cases h
  | enter t w =>
    simp only [step] at h
    split at h
    · next op hth =>
      split at h
      · next c sh op' hbody =>
        exact .inr (.inr (.inl ⟨t, w, op, c, sh, op', rfl, hth, hbody,
          (Option.some.inj h).symm⟩))
      · next sh r wk hbody =>
        obtain ⟨ths, hths, rfl⟩ := Option.map_eq_some_iff.mp h
        exact .inr (.inr (.inr ⟨t, w, op, sh, r, wk, rfl, hth, hbody, rfl,
          woken_of_wake hths⟩))
    · cases h

variable {op : Op} {t : ℕ}

/-- A thread that is ready can take the mutex. -/
theorem exists_enter (body : Op → σ → Outcome σ Op C R) {s : State σ Op C R}
    (h : s.threads[t]? = some (.ready op)) : ∃ w s', step body s (.enter t w) = some s' := by
  cases hb : body op s.shared with
  | wait c sh op' => exact ⟨0, _, by simp only [step, h, hb]; rfl⟩
  | done sh r wk =>
    obtain ⟨w, ths, hw⟩ := exists_wake (s.threads.set t (.returned r)) wk
    exact ⟨w, ⟨sh, ths⟩, by simp only [step, h, hb, hw, Option.map_some]⟩

/-! ## Who sleeps and who is ready -/

section Woken

variable {ths ths' : List (Thread Op C R)} {wk : Wake C} (kind : Op → Bool) {c : C}

/-- Waking changes nothing, or makes one sleeper ready. -/
theorem Woken.eq_or_set (h : Woken ths ths' wk) :
    ths' = ths ∨ ∃ w c op, ths[w]? = some (.asleep c op) ∧ ths' = ths.set w (.ready op) := by
  cases wk with
  | nobody => exact .inl h
  | one c =>
    rcases h with ⟨-, heq⟩ | ⟨w, op, hw, heq⟩
    · exact .inl heq
    · exact .inr ⟨w, c, op, hw, heq⟩

/-- Nobody falls asleep by waking. -/
theorem Woken.sleeps (h : Woken ths ths' wk) {op : Op} (hmem : .asleep c op ∈ ths') :
    .asleep c op ∈ ths := by
  rcases h.eq_or_set with rfl | ⟨w, d, op', -, rfl⟩
  · exact hmem
  · rcases List.mem_or_eq_of_mem_set hmem with hmem | heq
    · exact hmem
    · cases heq

/-- Nobody ready is lost by waking, and one call is woken at most. -/
theorem Woken.readies_le (h : Woken ths ths' wk) :
    readies kind ths ≤ readies kind ths' ∧ readies kind ths' ≤ readies kind ths + 1 := by
  rcases h.eq_or_set with rfl | ⟨w, d, op, hw, rfl⟩
  · exact ⟨Nat.le_refl _, Nat.le_succ _⟩
  · have hset := readies_set kind hw (.ready op)
    simp only [Thread.readyFor] at hset
    cases hk : kind op with
    | true | false =>
      simp only [hk, Bool.false_eq_true, if_true, if_false] at hset
      omega

/-- One who sleeps for `c` is woken, and is ready if those who sleep there are of the
kind. -/
theorem Woken.readies_lt (h : Woken ths ths' (.one c)) (hs : ∃ th ∈ ths', th.sleepsOn c = true)
    (hkind : ∀ op, .asleep c op ∈ ths → kind op = true) :
    readies kind ths + 1 ≤ readies kind ths' := by
  rcases h with ⟨hno, rfl⟩ | ⟨w, op, hw, rfl⟩
  · obtain ⟨th, hth, hsleeps⟩ := hs
    rw [hno th hth] at hsleeps
    cases hsleeps
  · have hset := readies_set kind hw (.ready op)
    have hop : kind op = true := hkind op (List.mem_of_getElem? hw)
    simp only [Thread.readyFor, hop, if_true] at hset
    simp only [Bool.false_eq_true, if_false] at hset
    omega

end Woken

/-! ## The calls under way -/

/-- The call a thread is in. -/
def Thread.call : Thread Op C R → Option Op
  | .ready op => some op
  | .asleep _ op => some op
  | _ => none

/-- The call thread `t` is in. -/
def State.call (s : State σ Op C R) (t : ℕ) : Option Op := s.threads[t]?.bind Thread.call

omit [DecidableEq C] in
theorem call_set {sh : σ} {th : Thread Op C R} (h : ths[t]? = some th) (th' : Thread Op C R) :
    (⟨sh, ths.set t th'⟩ : State σ Op C R).call
      = Function.update (⟨sh, ths⟩ : State σ Op C R).call t th'.call := by
  have hlt : t < ths.length := (List.getElem?_eq_some_iff.mp h).1
  funext u
  by_cases hu : u = t
  · subst hu
    rw [Function.update_self, State.call, List.getElem?_set_self hlt]
    rfl
  · rw [Function.update_of_ne hu, State.call, List.getElem?_set_ne (Ne.symm hu)]
    rfl

/-- Waking ends no call and begins none. -/
theorem Woken.call_eq (sh : σ) {wk : Wake C} (h : Woken ths ths' wk) :
    (⟨sh, ths'⟩ : State σ Op C R).call = (⟨sh, ths⟩ : State σ Op C R).call := by
  rcases h.eq_or_set with rfl | ⟨w, c, op, hw, rfl⟩
  · rfl
  · rw [call_set hw]
    have hcall : (⟨sh, ths⟩ : State σ Op C R).call w = some op := by
      rw [State.call, hw]
      rfl
    exact (congrArg _ hcall.symm).trans (Function.update_eq_self w _)

/-- A thread whose call has returned is not among those that are woken. -/
theorem Woken.returned {wk : Wake C} {r : R}
    (h : Woken ths ths' wk) (ht : ths[t]? = some (.returned r)) :
    ths'[t]? = some (.returned r) := by
  rcases h.eq_or_set with rfl | ⟨w, c, op, hw, rfl⟩
  · exact ht
  · have hne : w ≠ t := by
      rintro rfl
      rw [hw] at ht
      cases ht
    rw [List.getElem?_set_ne hne, ht]

theorem Woken.length_eq {wk : Wake C} (h : Woken ths ths' wk) : ths'.length = ths.length := by
  rcases h.eq_or_set with rfl | ⟨w, c, op, hw, rfl⟩
  · rfl
  · exact List.length_set

/-! ## What the calls return -/

/-- The return that step `a` makes in state `s`, if it makes one: the thread, its call as
it stood when it took the mutex for the last time, and the result. -/
def returned (body : Op → σ → Outcome σ Op C R) (s : State σ Op C R) :
    Act Op → Option (ℕ × Op × R)
  | .enter t _ =>
    match s.threads[t]? with
    | some (.ready op) =>
      match body op s.shared with
      | .done _ r _ => some (t, op, r)
      | .wait _ _ _ => none
    | _ => none
  | _ => none

/-- The returns of a run, oldest first. -/
def returns (body : Op → σ → Outcome σ Op C R) :
    State σ Op C R → List (Act Op) → List (ℕ × Op × R)
  | _, [] => []
  | s, a :: as =>
    match step body s a with
    | some s' => (returned body s a).toList ++ returns body s' as
    | none => []

omit [DecidableEq C] in
/-- What a return comes from: the call of a thread that was ready, and its body. -/
theorem body_of_returned {s : State σ Op C R} {a : Act Op} {r : R}
    (h : returned body s a = some (t, op, r)) : ∃ sh wk, body op s.shared = .done sh r wk := by
  cases a with
  | call u op' => cases h
  | spurious u => cases h
  | enter u w =>
    simp only [returned] at h
    split at h
    · split at h
      · next sh r' wk hbody =>
        cases h
        exact ⟨sh, wk, hbody⟩
      · cases h
    · cases h

/-- **The record rule.** A list in the shared data that grows by what a call hands out
when the call returns, and at no other time, is the list of what the calls of the run
have handed out, in the order of their returns. -/
theorem record_returns {β : Type} (record : σ → List β) (f : Op → R → Option β)
    (hwait : ∀ {op sh c sh' op'}, body op sh = .wait c sh' op' → record sh' = record sh)
    (hdone : ∀ {op sh sh' r wk}, body op sh = .done sh' r wk →
      record sh' = record sh ++ (f op r).toList)
    {s s' : State σ Op C R} {as : List (Act Op)} (hrun : Steps.run (step body) s as = some s') :
    record s'.shared
      = record s.shared ++ (returns body s as).filterMap (fun x => f x.2.1 x.2.2) := by
  induction as generalizing s with
  | nil =>
    rw [Steps.run_nil, Option.some.injEq] at hrun
    rw [hrun, returns, List.filterMap_nil, List.append_nil]
  | cons a as ih =>
    obtain ⟨u, hu, hrest⟩ := Steps.run_cons_eq_some.mp hrun
    have hfirst : record u.shared
        = record s.shared ++ (returned body s a).toList.filterMap (fun x => f x.2.1 x.2.2) := by
      obtain ⟨t, op, th, rfl, -, -, rfl⟩ | ⟨t, c, op, rfl, -, rfl⟩
        | ⟨t, w, op, c, sh, op', rfl, ht, hbody, rfl⟩
        | ⟨t, w, op, sh, r, wk, rfl, ht, hbody, rfl, -⟩ := step_cases hu
      · exact (List.append_nil _).symm
      · exact (List.append_nil _).symm
      · simp only [returned, ht, hbody]
        exact (hwait hbody).trans (List.append_nil _).symm
      · simp only [returned, ht, hbody]
        rw [hdone hbody]
        cases hf : f op r with
        | none => simp [hf]
        | some b => simp [hf]
    rw [ih hrest, hfirst, List.append_assoc, ← List.filterMap_append]
    simp only [returns, hu]

/-- A call begins. -/
theorem call_begins {s s' : State σ Op C R} (h : step body s (.call t op) = some s') :
    s.call t = none ∧ s'.shared = s.shared ∧ s'.call = Function.update s.call t (some op) := by
  obtain ⟨t', op', th, ha, hth, hout, rfl⟩ | ⟨_, _, _, ha, -⟩ | ⟨_, _, _, _, _, _, ha, -⟩
    | ⟨_, _, _, _, _, _, ha, -⟩ := step_cases h
  · cases ha
    refine ⟨?_, rfl, call_set hth _⟩
    rw [State.call, hth]
    cases th with
    | idle | returned r => rfl
    | ready op | asleep c op => cases hout
  · cases ha
  · cases ha
  · cases ha

theorem call_spurious {s s' : State σ Op C R} (h : step body s (.spurious t) = some s') :
    s'.shared = s.shared ∧ s'.call = s.call := by
  obtain ⟨_, _, _, ha, -⟩ | ⟨t', c, op, ha, hth, rfl⟩ | ⟨_, _, _, _, _, _, ha, -⟩
    | ⟨_, _, _, _, _, _, ha, -⟩ := step_cases h
  · cases ha
  · refine ⟨rfl, (call_set hth _).trans ?_⟩
    have hcall : s.call t' = some op := by
      rw [State.call, hth]
      rfl
    exact (congrArg _ hcall.symm).trans (Function.update_eq_self t' _)
  · cases ha
  · cases ha

/-- **A thread with the mutex** waits in its call, or returns from it. -/
theorem call_enter {s s' : State σ Op C R} {t w : ℕ} (h : step body s (.enter t w) = some s') :
    ∃ op, s.call t = some op
      ∧ ((∃ c op', body op s.shared = .wait c s'.shared op'
          ∧ s'.call = Function.update s.call t (some op'))
        ∨ ∃ r wk, body op s.shared = .done s'.shared r wk
          ∧ s'.call = Function.update s.call t none ∧ s'.threads[t]? = some (.returned r)) := by
  obtain ⟨_, _, _, ha, -⟩ | ⟨_, _, _, ha, -⟩ | ⟨t', w', op, c, sh, op', ha, hth, hbody, rfl⟩
    | ⟨t', w', op, sh, r, wk, ha, hth, hbody, hsh, hwoken⟩ := step_cases h
  · cases ha
  · cases ha
  · cases ha
    refine ⟨op, by rw [State.call, hth]; rfl, .inl ⟨c, op', hbody, call_set hth _⟩⟩
  · cases ha
    subst hsh
    have hlt : t < s.threads.length := (List.getElem?_eq_some_iff.mp hth).1
    refine ⟨op, by rw [State.call, hth]; rfl, .inr ⟨r, wk, hbody, ?_, ?_⟩⟩
    · exact (hwoken.call_eq s'.shared).trans (call_set hth _)
    · exact hwoken.returned (List.getElem?_set_self hlt)

theorem step_length {s s' : State σ Op C R} {a : Act Op} (h : step body s a = some s') :
    s'.threads.length = s.threads.length := by
  obtain ⟨t, op, th, -, -, -, rfl⟩ | ⟨t, c, op, -, -, rfl⟩ | ⟨t, w, op, c, sh, op', -, -, -, rfl⟩
    | ⟨t, w, op, sh, r, wk, -, -, -, -, hwoken⟩ := step_cases h
  · exact List.length_set
  · exact List.length_set
  · exact List.length_set
  · rw [hwoken.length_eq]
    exact List.length_set

/-- How many calls are ready, of any kind. -/
def State.awake (s : State σ Op C R) : ℕ := readies (fun _ => true) s.threads

theorem awake_call {s s' : State σ Op C R}
    (h : step body s (.call t op) = some s') : s'.awake = s.awake + 1 := by
  obtain ⟨t', op', th, ha, hth, hout, rfl⟩ | ⟨_, _, _, ha, -⟩ | ⟨_, _, _, _, _, _, ha, -⟩
    | ⟨_, _, _, _, _, _, ha, -⟩ := step_cases h
  · have hset : readies (fun _ => true) (s.threads.set t' (.ready op')) + _ = _ :=
      readies_set _ hth (.ready op')
    have hnot : th.readyFor (fun _ => true) = false := by
      cases th with
      | idle | returned r | asleep c op => rfl
      | ready op => cases hout
    rw [hnot] at hset
    exact hset
  · cases ha
  · cases ha
  · cases ha

theorem awake_spurious {s s' : State σ Op C R} (h : step body s (.spurious t) = some s') :
    s'.awake = s.awake + 1 := by
  obtain ⟨_, _, _, ha, -⟩ | ⟨t', c, op, ha, hth, rfl⟩ | ⟨_, _, _, _, _, _, ha, -⟩
    | ⟨_, _, _, _, _, _, ha, -⟩ := step_cases h
  · cases ha
  · have hset : readies (fun _ => true) (s.threads.set t' (.ready op)) + _ = _ :=
      readies_set _ hth (.ready op)
    simpa [Thread.readyFor, State.awake] using hset
  · cases ha
  · cases ha

/-- At most one is woken at a time, so that the calls that are ready get no more; they get
fewer if the call waits. -/
theorem awake_enter {s s' : State σ Op C R} {t w : ℕ} (h : step body s (.enter t w) = some s') :
    s'.awake ≤ s.awake ∧ (s'.call t ≠ none → s'.awake + 1 ≤ s.awake) := by
  obtain ⟨_, _, _, ha, -⟩ | ⟨_, _, _, ha, -⟩ | ⟨t', w', op, c, sh, op', ha, hth, hbody, rfl⟩
    | ⟨t', w', op, sh, r, wk, ha, hth, hbody, hsh, hwoken⟩ := step_cases h
  · cases ha
  · cases ha
  · have hset : readies (fun _ => true) (s.threads.set t' (.asleep c op')) + _ = _ :=
      readies_set _ hth (.asleep c op')
    simp only [Thread.readyFor, if_true, Bool.false_eq_true, if_false] at hset
    simp only [State.awake]
    exact ⟨by omega, fun _ => by omega⟩
  · cases ha
    have hset : readies (fun _ => true) (s.threads.set t (.returned r)) + _ = _ :=
      readies_set _ hth (.returned r)
    simp only [Thread.readyFor, if_true, Bool.false_eq_true, if_false] at hset
    have hle : readies (fun _ => true) s'.threads ≤ _ := (hwoken.readies_le _).2
    refine ⟨by simp only [State.awake]; omega, fun hcall => absurd ?_ hcall⟩
    have hlt : t < s.threads.length := (List.getElem?_eq_some_iff.mp hth).1
    rw [State.call, hwoken.returned (List.getElem?_set_self hlt)]
    rfl

/-- A thread outside of the monitor can make a call. -/
theorem exists_call (body : Op → σ → Outcome σ Op C R) {s : State σ Op C R}
    (hlt : t < s.threads.length) (h : s.call t = none) (op : Op) :
    ∃ s', step body s (.call t op) = some s' := by
  have hth : s.threads[t]? = some (s.threads.get ⟨t, hlt⟩) := List.getElem?_eq_getElem hlt
  rw [State.call, hth] at h
  have hout : (s.threads.get ⟨t, hlt⟩).outside = true := by
    cases hcase : s.threads.get ⟨t, hlt⟩ with
    | idle | returned r => rfl
    | ready op | asleep c op =>
      rw [hcase] at h
      cases h
  exact ⟨_, by simp only [step, hth, hout, if_true]; rfl⟩

/-- Whoever sleeps after a step has slept before, or has just gone to sleep. -/
theorem step_asleep {s s' : State σ Op C R} {a : Act Op} (hstep : step body s a = some s') {c : C}
    (h : .asleep c op ∈ s'.threads) :
    .asleep c op ∈ s.threads ∨ ∃ op₀, body op₀ s.shared = .wait c s'.shared op := by
  obtain ⟨t, op', th, -, -, -, rfl⟩ | ⟨t, d, op', -, -, rfl⟩
    | ⟨t, w, op₀, d, sh, op', -, -, hbody, rfl⟩ | ⟨t, w, op₀, sh, r, wk, -, -, -, -, hwoken⟩ :=
    step_cases hstep
  · rcases List.mem_or_eq_of_mem_set h with hmem | heq
    · exact .inl hmem
    · cases heq
  · rcases List.mem_or_eq_of_mem_set h with hmem | heq
    · exact .inl hmem
    · cases heq
  · rcases List.mem_or_eq_of_mem_set h with hmem | heq
    · exact .inl hmem
    · obtain ⟨rfl, rfl⟩ := Thread.asleep.inj heq
      exact .inr ⟨op₀, hbody⟩
  · rcases List.mem_or_eq_of_mem_set (hwoken.sleeps h) with hmem | heq
    · exact .inl hmem
    · cases heq

/-! ## Conditions that are signalled -/

/-- Calls of kind `kind` wait for `c`, and `cap` of them could go on: a call of the kind
uses one up, and a call that adds one wakes a sleeper. -/
structure Signalled (body : Op → σ → Outcome σ Op C R) (kind : Op → Bool) (c : C) (cap : σ → ℕ) :
    Prop where
  wait_kind : ∀ {op s c' s' op'}, kind op = true → body op s = .wait c' s' op' →
    c' = c ∧ cap s' = 0 ∧ kind op' = true
  done_kind : ∀ {op s s' r wk}, kind op = true → body op s = .done s' r wk → cap s' ≤ cap s - 1
  wait_other : ∀ {op s c' s' op'}, kind op = false → body op s = .wait c' s' op' →
    c' ≠ c ∧ cap s' ≤ cap s ∧ kind op' = false
  done_other : ∀ {op s s' r wk}, kind op = false → body op s = .done s' r wk →
    cap s' ≤ cap s ∨ (cap s' ≤ cap s + 1 ∧ wk = .one c)

/-- As long as somebody sleeps, as many calls are ready as could go on. -/
structure Served (kind : Op → Bool) (c : C) (cap : σ → ℕ) (s : State σ Op C R) : Prop where
  kinds : ∀ c' op, .asleep c' op ∈ s.threads → (c' = c ↔ kind op = true)
  enough : (∃ th ∈ s.threads, th.sleepsOn c = true) → cap s.shared ≤ readies kind s.threads

variable {kind : Op → Bool} {c : C} {cap : σ → ℕ} {s s' : State σ Op C R}

theorem served_of_awake (h : ∀ th ∈ s.threads, ∀ c op, th ≠ .asleep c op) :
    Served kind c cap s := by
  refine ⟨fun c' op hmem => absurd rfl (h _ hmem c' op), ?_⟩
  rintro ⟨th, hth, hs⟩
  cases th with
  | asleep c' op => exact absurd rfl (h _ hth c' op)
  | idle | ready op | returned r => cases hs

/-- A thread is woken, or makes a call. -/
theorem Served.ready {th : Thread Op C R} (h : Served kind c cap s)
    (hth : s.threads[t]? = some th) (hnot : ∀ op, th ≠ .ready op) :
    Served kind c cap { s with threads := s.threads.set t (.ready op) } := by
  refine ⟨fun c' op' hmem => ?_, ?_⟩
  · rcases List.mem_or_eq_of_mem_set hmem with hmem | heq
    · exact h.kinds c' op' hmem
    · cases heq
  · rintro ⟨th', hth', hs⟩
    have hset := readies_set kind hth (.ready op)
    have hzero : th.readyFor kind = false := by
      cases th with
      | ready op' => exact absurd rfl (hnot op')
      | idle | asleep c' op' | returned r => rfl
    rw [hzero] at hset
    have hbefore : cap s.shared ≤ readies kind s.threads := by
      refine h.enough ⟨th', ?_, hs⟩
      rcases List.mem_or_eq_of_mem_set hth' with hmem | rfl
      · exact hmem
      · cases hs
    show cap s.shared ≤ readies kind (s.threads.set t (.ready op))
    simp only [Bool.false_eq_true, if_false] at hset
    omega

/-- A call waits. -/
theorem Served.wait (hsig : Signalled body kind c cap) {op op' : Op} {c' : C} {sh : σ}
    (h : Served kind c cap s) (hth : s.threads[t]? = some (.ready op))
    (hbody : body op s.shared = .wait c' sh op') :
    Served kind c cap ⟨sh, s.threads.set t (.asleep c' op')⟩ := by
  have hkinds : ∀ d op'', .asleep d op'' ∈ s.threads.set t (.asleep c' op') →
      (d = c ↔ kind op'' = true) := by
    intro d op'' hmem
    rcases List.mem_or_eq_of_mem_set hmem with hmem | heq
    · exact h.kinds d op'' hmem
    · obtain ⟨rfl, rfl⟩ := Thread.asleep.inj heq
      cases hk : kind op with
      | true => exact iff_of_true (hsig.wait_kind hk hbody).1 (hsig.wait_kind hk hbody).2.2
      | false =>
        obtain ⟨hne, -, hno⟩ := hsig.wait_other hk hbody
        exact iff_of_false hne (by rw [hno]; exact Bool.noConfusion)
  refine ⟨hkinds, ?_⟩
  rintro ⟨th, hmem, hs⟩
  cases hk : kind op with
  | true =>
    show cap sh ≤ _
    rw [(hsig.wait_kind hk hbody).2.1]
    exact Nat.zero_le _
  | false =>
    obtain ⟨hne, hcap, -⟩ := hsig.wait_other hk hbody
    have hset := readies_set kind hth (.asleep c' op')
    have hbefore : cap s.shared ≤ readies kind s.threads := by
      refine h.enough ⟨th, ?_, hs⟩
      rcases List.mem_or_eq_of_mem_set hmem with hmem | rfl
      · exact hmem
      · exact absurd (of_decide_eq_true hs) hne
    show cap sh ≤ readies kind (s.threads.set t (.asleep c' op'))
    simp only [Thread.readyFor, hk, Bool.false_eq_true, if_false] at hset
    omega

/-- A call returns. -/
theorem Served.done (hsig : Signalled body kind c cap) {sh : σ} {r : R}
    {wk : Wake C} (h : Served kind c cap s)
    (hth : s.threads[t]? = some (.ready op)) (hbody : body op s.shared = .done sh r wk)
    (hwoken : Woken (s.threads.set t (.returned r)) ths wk) : Served kind c cap ⟨sh, ths⟩ := by
  -- whoever sleeps now has slept before
  have hold : ∀ d op', .asleep d op' ∈ ths → .asleep d op' ∈ s.threads := by
    intro d op' hmem
    rcases List.mem_or_eq_of_mem_set (hwoken.sleeps hmem) with hmem' | heq
    · exact hmem'
    · cases heq
  refine ⟨fun d op' hmem => h.kinds d op' (hold d op' hmem), ?_⟩
  rintro ⟨th, hmem, hs⟩
  have hset := readies_set kind hth (.returned r)
  have hle := (hwoken.readies_le kind).1
  cases th with
  | asleep d op' =>
    obtain rfl : d = c := of_decide_eq_true hs
    have hbefore := h.enough ⟨_, hold d op' hmem, hs⟩
    show cap sh ≤ readies kind ths
    cases hk : kind op with
    | true =>
      have hcap := hsig.done_kind hk hbody
      simp only [Thread.readyFor, hk, if_true] at hset
      simp only [Bool.false_eq_true, if_false] at hset
      omega
    | false =>
      simp only [Thread.readyFor, hk, Bool.false_eq_true, if_false] at hset
      rcases hsig.done_other hk hbody with hcap | ⟨hcap, rfl⟩
      · omega
      · have hlt := hwoken.readies_lt kind ⟨_, hmem, hs⟩ fun op'' hmem'' => by
          rcases List.mem_or_eq_of_mem_set hmem'' with hmem'' | heq
          · exact (h.kinds d op'' hmem'').mp rfl
          · cases heq
        omega
  | idle | ready op' | returned r' => cases hs

/-- **The rule for conditions that are signalled.** -/
theorem served_step (hsig : Signalled body kind c cap) {a : Act Op} (h : Served kind c cap s)
    (hstep : step body s a = some s') : Served kind c cap s' := by
  obtain ⟨t, op, th, -, hth, hout, rfl⟩ | ⟨t, d, op, -, hth, rfl⟩
    | ⟨t, w, op, d, sh, op', -, hth, hbody, rfl⟩
    | ⟨t, w, op, sh, r, wk, -, hth, hbody, hsh, hwoken⟩ := step_cases hstep
  · refine h.ready hth fun op' heq => ?_
    rw [heq] at hout
    cases hout
  · exact h.ready hth fun op' heq => by cases heq
  · exact h.wait hsig hth hbody
  · subst hsh
    exact h.done hsig hth hbody hwoken

/-- Where nobody is ready, whoever sleeps could not go on. -/
theorem Served.quiet (h : Served kind c cap s) (hquiet : ∀ th ∈ s.threads, ∀ op, th ≠ .ready op)
    (hs : .asleep c op ∈ s.threads) : cap s.shared = 0 := by
  have henough := h.enough ⟨_, hs, decide_eq_true rfl⟩
  have hnone : readies kind s.threads = 0 := by
    refine List.countP_eq_zero.mpr fun th hth hr => ?_
    cases th with
    | ready op => exact hquiet _ hth op rfl
    | idle | asleep c' op | returned r => cases hr
  omega

end Step

end Monitor
