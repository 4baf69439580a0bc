/-
Runs of a partial step function, and the invariant rules every protocol file
below uses.

A system is a function `step : σ → α → Option σ`: `none` says that the action is
not enabled in this state (the mutex is held, the message was never sent, the
process has aborted). A run is a list of actions. The condition `ok` that some of
the results carry is a predicate on a state and the action taken in it, so that
"every step of the run meets the condition" is a statement about the states
*before* the steps and never about what the steps compute.
-/
import Mathlib.Data.List.Basic

set_option autoImplicit false

namespace Steps

variable {σ α : Type*}

/-! ## Runs -/

/-- The state a list of actions leads to, `none` as soon as one is not enabled. -/
def run (step : σ → α → Option σ) : σ → List α → Option σ
  | s, [] => some s
  | s, a :: as => (step s a).bind fun s' => run step s' as

/-- Every action of the run meets `ok` in the state it is taken in. -/
def RunMeets (step : σ → α → Option σ) (ok : σ → α → Prop) : σ → List α → Prop
  | _, [] => True
  | s, a :: as => ok s a ∧ ∀ s', step s a = some s' → RunMeets step ok s' as

variable {step : σ → α → Option σ} {ok : σ → α → Prop}

/-- A condition that can be decided at a step can be decided along a run. -/
instance decidableRunMeets [∀ s a, Decidable (ok s a)] :
    (s : σ) → (as : List α) → Decidable (RunMeets step ok s as)
  | _, [] => .isTrue trivial
  | s, a :: as =>
    -- the rest of the run matters only when the step is enabled
    match hs : step s a with
    | none => decidable_of_iff (ok s a)
        ⟨fun h => ⟨h, fun s' h' => by rw [hs] at h'; cases h'⟩, fun h => h.1⟩
    | some s' =>
      have := decidableRunMeets s' as
      decidable_of_iff (ok s a ∧ RunMeets step ok s' as)
        ⟨fun h => ⟨h.1, fun t ht => by rw [hs] at ht; cases ht; exact h.2⟩,
          fun h => ⟨h.1, h.2 s' hs⟩⟩

@[simp] theorem run_nil (s : σ) : run step s [] = some s := rfl

theorem run_cons (s : σ) (a : α) (as : List α) :
    run step s (a :: as) = (step s a).bind fun s' => run step s' as := rfl

/-- A run of one action more, read from the left. -/
theorem run_cons_eq_some {s t : σ} {a : α} {as : List α} :
    run step s (a :: as) = some t ↔ ∃ s', step s a = some s' ∧ run step s' as = some t := by
  rw [run_cons, Option.bind_eq_some_iff]

/-- A run in two parts. -/
theorem run_append (s : σ) (as bs : List α) :
    run step s (as ++ bs) = (run step s as).bind fun t => run step t bs := by
  induction as generalizing s with
  | nil => rfl
  | cons a as ih =>
    rw [List.cons_append, run_cons, run_cons, Option.bind_assoc]
    exact congrArg _ (funext fun s' => ih s')

/-- A run exists when what it computes can be evaluated. -/
theorem exists_run {β : Type*} {f : σ → β} {x : β} {s : σ} {as : List α}
    (h : (run step s as).map f = some x) : ∃ t, run step s as = some t ∧ f t = x :=
  Option.map_eq_some_iff.mp h

/-- A run and the step after it, from what they compute. -/
theorem exists_run_step {β : Type*} {f : σ → σ → β} {x : β} {s : σ} {as : List α} {a : α}
    (h : ((run step s as).bind fun t => (step t a).map (f t)) = some x) :
    ∃ t t', run step s as = some t ∧ step t a = some t' ∧ f t t' = x := by
  obtain ⟨t, ht, hx⟩ := Option.bind_eq_some_iff.mp h
  obtain ⟨t', ht', hx⟩ := Option.map_eq_some_iff.mp hx
  exact ⟨t, t', ht, ht', hx⟩

/-- Two runs, one after the other, from what they compute. -/
theorem exists_run_run {β : Type*} {f : σ → σ → β} {x : β} {s : σ} {as bs : List α}
    (h : ((run step s as).bind fun t => (run step t bs).map (f t)) = some x) :
    ∃ t t', run step s as = some t ∧ run step t bs = some t' ∧ f t t' = x := by
  obtain ⟨t, ht, hx⟩ := Option.bind_eq_some_iff.mp h
  obtain ⟨t', ht', hx⟩ := Option.map_eq_some_iff.mp hx
  exact ⟨t, t', ht, ht', hx⟩

/-- A condition met along a run is met along its two parts. -/
theorem runMeets_append {s t : σ} {as bs : List α} (h : RunMeets step ok s (as ++ bs))
    (hrun : run step s as = some t) : RunMeets step ok s as ∧ RunMeets step ok t bs := by
  induction as generalizing s with
  | nil =>
    rw [run_nil, Option.some.injEq] at hrun
    exact ⟨trivial, hrun ▸ h⟩
  | cons a as ih =>
    obtain ⟨s', hs', hrest⟩ := run_cons_eq_some.mp hrun
    refine ⟨⟨h.1, fun u hu => ?_⟩, (ih (h.2 s' hs') hrest).2⟩
    rw [hs', Option.some.injEq] at hu
    exact hu ▸ (ih (h.2 s' hs') hrest).1

/-- Two conditions met along a run are met together. -/
theorem runMeets_and {ok' : σ → α → Prop} {s : σ} {as : List α} (h : RunMeets step ok s as)
    (h' : RunMeets step ok' s as) : RunMeets step (fun s a => ok s a ∧ ok' s a) s as := by
  induction as generalizing s with
  | nil => trivial
  | cons a as ih => exact ⟨⟨h.1, h'.1⟩, fun t ht => ih (h.2 t ht) (h'.2 t ht)⟩

/-- A condition is met along a run if it is met wherever the run comes to. -/
theorem runMeets_of_split {s : σ} {as : List α}
    (h : ∀ p a q u, as = p ++ a :: q → run step s p = some u → ok u a) :
    RunMeets step ok s as := by
  induction as generalizing s with
  | nil => trivial
  | cons a as ih =>
    refine ⟨h [] a as s rfl rfl, fun s' hs' => ih fun p b q u hsplit hu => ?_⟩
    refine h (a :: p) b q u (by rw [hsplit]; rfl) ?_
    rw [run_cons, hs']
    exact hu

/-! ## The invariant rules -/

/-- **The invariant rule.** What every step that meets `ok` preserves holds after
every run whose steps all meet `ok`. -/
theorem run_inv {P : σ → Prop}
    (hstep : ∀ s a s', P s → ok s a → step s a = some s' → P s')
    {s t : σ} {as : List α} (hs : P s) (hok : RunMeets step ok s as)
    (hrun : run step s as = some t) : P t := by
  -- the start moves with the run, so the induction is for every start
  induction as generalizing s with
  | nil =>
    rw [run_nil, Option.some.injEq] at hrun
    exact hrun ▸ hs
  | cons a as ih =>
    obtain ⟨s', hs', hrest⟩ := run_cons_eq_some.mp hrun
    exact ih (hstep s a s' hs hok.1 hs') (hok.2 s' hs') hrest

/-- A condition on the actions alone is met when every action of the list meets it. -/
theorem runMeets_of_forall {p : α → Prop} {as : List α} (h : ∀ a ∈ as, p a) (s : σ) :
    RunMeets step (fun _ a => p a) s as := by
  induction as generalizing s with
  | nil => trivial
  | cons a as ih =>
    refine ⟨h a List.mem_cons_self, fun s' _ => ?_⟩
    exact ih (fun a' ha' => h a' (List.mem_cons_of_mem _ ha')) s'

/-- The invariant rule for a condition on the actions alone. -/
theorem run_inv_forall {P : σ → Prop} {p : α → Prop}
    (hstep : ∀ s a s', P s → p a → step s a = some s' → P s')
    {s t : σ} {as : List α} (hs : P s) (hp : ∀ a ∈ as, p a) (hrun : run step s as = some t) :
    P t :=
  run_inv hstep hs (runMeets_of_forall hp s) hrun

/-- The invariant rule for a system whose steps carry no condition. -/
theorem run_inv_all {P : σ → Prop}
    (hstep : ∀ s a s', P s → step s a = some s' → P s')
    {s t : σ} {as : List α} (hs : P s) (hrun : run step s as = some t) : P t :=
  run_inv_forall (p := fun _ => True) (fun s a s' hi _ h => hstep s a s' hi h) hs
    (fun _ _ => trivial) hrun

/-- Two conditions that are the same wherever an invariant holds are met along the same
runs. -/
theorem runMeets_congr {P : σ → Prop} {ok' : σ → α → Prop}
    (hstep : ∀ s a s', P s → step s a = some s' → P s')
    (hiff : ∀ s a, P s → (ok s a ↔ ok' s a)) {s : σ} {as : List α} (hs : P s) :
    RunMeets step ok s as ↔ RunMeets step ok' s as := by
  induction as generalizing s with
  | nil => exact Iff.rfl
  | cons a as ih =>
    refine and_congr (hiff s a hs) (forall_congr' fun s' => imp_congr_right fun h => ?_)
    exact ih (hstep s a s' hs h)

/-- **The rule for how long a run can be.** Where every step lowers a rank, but for the
disturbances, each of which may raise it, the disturbances bound the length of a run. -/
theorem run_length_le {P : σ → Prop} {rank : σ → ℕ} {disturbs : α → Bool}
    (hstep : ∀ s a s', P s → step s a = some s' →
      P s' ∧ rank s' + 1 ≤ rank s + if disturbs a then 2 else 0)
    {s t : σ} {as : List α} (hs : P s) (hrun : run step s as = some t) :
    as.length + rank t ≤ rank s + 2 * as.countP disturbs := by
  induction as generalizing s with
  | nil =>
    rw [run_nil, Option.some.injEq] at hrun
    subst hrun
    simp
  | cons a as ih =>
    obtain ⟨s', hs', hrest⟩ := run_cons_eq_some.mp hrun
    obtain ⟨hP, hrank⟩ := hstep s a s' hs hs'
    have hle := ih hP hrest
    rw [List.length_cons, List.countP_cons]
    cases hd : disturbs a with
    | true =>
      simp only [hd, if_true] at hrank ⊢
      omega
    | false =>
      simp only [hd, Bool.false_eq_true, if_false] at hrank ⊢
      omega

/-- The rule for how often certain steps can be taken: where they lower a rank and no other
step raises it, the rank bounds their number. -/
theorem run_count_le {P : σ → Prop} {rank : σ → ℕ} {counts : α → Bool}
    (hstep : ∀ s a s', P s → ok s a → step s a = some s' →
      P s' ∧ rank s' + (if counts a then 1 else 0) ≤ rank s)
    {s t : σ} {as : List α} (hs : P s) (hok : RunMeets step ok s as)
    (hrun : run step s as = some t) : as.countP counts + rank t ≤ rank s := by
  induction as generalizing s with
  | nil =>
    rw [run_nil, Option.some.injEq] at hrun
    subst hrun
    simp
  | cons a as ih =>
    obtain ⟨s', hs', hrest⟩ := run_cons_eq_some.mp hrun
    obtain ⟨hP, hrank⟩ := hstep s a s' hs hok.1 hs'
    have hle := ih hP (hok.2 s' hs') hrest
    rw [List.countP_cons]
    omega

end Steps
