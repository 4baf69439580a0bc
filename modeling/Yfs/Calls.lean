/-
Programs that make calls, and what can be said of them on every path.

A program is a tree: it has returned, or it makes one call and goes on with the
answer. What answers a call is not part of the program. A path is a list of calls
with the answers they got, so that a path with arbitrary answers is a run of the
program as a step system, and a caller that answers from a state of its own (`exec`)
follows one of these paths.

`Keeps` is the rule for "on every path": a checker reads the path, and each call the
program can make must be one the checker accepts. It composes over `bind`, so a
function of the source needs one such fact and its callers use it.
-/
import Yfs.Steps

set_option autoImplicit false

namespace Calls

/-! ## Programs -/

/-- A program over the calls `E`, where call `e` answers with a value of `A e`. -/
inductive Prog (E : Type) (A : E → Type) (α : Type) where
  | ret (a : α)
  | call (e : E) (k : A e → Prog E A α)

/-- A call and the answer it got. -/
abbrev Event (E : Type) (A : E → Type) := Σ e : E, A e

namespace Prog

variable {E : Type} {A : E → Type} {α β : Type}

/-- Run `p`, then what `f` makes of its result. -/
def bind : Prog E A α → (α → Prog E A β) → Prog E A β
  | ret a, f => f a
  | call e k, f => call e fun x => (k x).bind f

instance : Monad (Prog E A) where
  pure := ret
  bind := bind

@[simp] theorem pure_eq (a : α) : (pure a : Prog E A α) = ret a := rfl

@[simp] theorem bind_eq (p : Prog E A α) (f : α → Prog E A β) : p >>= f = p.bind f := rfl

@[simp] theorem ret_bind (a : α) (f : α → Prog E A β) : (ret a).bind f = f a := rfl

@[simp] theorem call_bind (e : E) (k : A e → Prog E A α) (f : α → Prog E A β) :
    (call e k).bind f = call e fun x => (k x).bind f := rfl

/-! ## Paths -/

section Paths

variable [DecidableEq E]

/-- One step along a path: the program makes this call and gets this answer. -/
def step : Prog E A α → Event E A → Option (Prog E A α)
  | ret _, _ => none
  | call e k, ⟨e', x⟩ => if h : e' = e then some (k (h ▸ x)) else none

/-- A step is the call the program is at, with some answer. -/
theorem step_eq_some {p q : Prog E A α} {ev : Event E A} (h : p.step ev = some q) :
    ∃ e k x, p = call e k ∧ ev = ⟨e, x⟩ ∧ q = k x := by
  cases p with
  | ret a => cases h
  | call e k =>
    obtain ⟨e', x⟩ := ev
    simp only [step] at h
    split at h
    · next he =>
      subst he
      exact ⟨e', k, x, rfl, rfl, (Option.some.inj h).symm⟩
    · cases h

end Paths

/-! ## Programs answered from a state -/

section Exec

variable {σ : Type}

/-- Run the program against `env`, which answers a call from its state; `none` is a
call that does not return. -/
def exec (env : σ → (e : E) → Option (A e × σ)) : Prog E A α → σ → Option (α × σ)
  | ret a, s => some (a, s)
  | call e k, s =>
    match env s e with
    | none => none
    | some r => (k r.1).exec env r.2

variable {env : σ → (e : E) → Option (A e × σ)}

@[simp] theorem exec_ret (a : α) (s : σ) : (ret a : Prog E A α).exec env s = some (a, s) := rfl

theorem exec_call {e : E} {s s' : σ} {x : A e} (h : env s e = some (x, s'))
    (k : A e → Prog E A α) : (call e k).exec env s = (k x).exec env s' := by
  simp only [exec, h]

theorem exec_call_none {e : E} {s : σ} (h : env s e = none) (k : A e → Prog E A α) :
    (call e k).exec env s = none := by
  simp only [exec, h]

/-- Running `p` and then what follows it. -/
theorem exec_bind (p : Prog E A α) (f : α → Prog E A β) (s : σ) :
    (p.bind f).exec env s = (p.exec env s).bind fun r => (f r.1).exec env r.2 := by
  induction p generalizing s with
  | ret a => rfl
  | call e k ih =>
    simp only [bind, exec]
    cases env s e with
    | none => rfl
    | some r => exact ih r.1 r.2

theorem exec_bind_some {p : Prog E A α} {f : α → Prog E A β} {s s' : σ} {a : α}
    (h : p.exec env s = some (a, s')) : (p.bind f).exec env s = (f a).exec env s' := by
  rw [exec_bind, h]
  rfl

end Exec

/-! ## A property of every path -/

section Keeps

variable {σ : Type}

/-- From checker state `s`, every call `p` can make is accepted whatever the answers
are, and where `p` returns, `Q` holds of the checker's state and the result. -/
def Keeps (check : σ → Event E A → Option σ) (Q : σ → α → Prop) : σ → Prog E A α → Prop
  | s, ret a => Q s a
  | s, call e k => ∀ x, ∃ s', check s ⟨e, x⟩ = some s' ∧ Keeps check Q s' (k x)

variable {check : σ → Event E A → Option σ}

theorem keeps_ret {Q : σ → α → Prop} {s : σ} {a : α} (h : Q s a) : Keeps check Q s (ret a) := h

/-- A call the checker accepts whatever the answer is, with the same state after it. -/
theorem keeps_call {Q : σ → α → Prop} {s s' : σ} {e : E} {k : A e → Prog E A α}
    (hcheck : ∀ x, check s ⟨e, x⟩ = some s') (hk : ∀ x, Keeps check Q s' (k x)) :
    Keeps check Q s (call e k) :=
  fun x => ⟨s', hcheck x, hk x⟩

/-- **The rule for sequencing.** -/
theorem keeps_bind {Q : σ → β → Prop} {s : σ} {p : Prog E A α} {f : α → Prog E A β}
    (h : Keeps check (fun s a => Keeps check Q s (f a)) s p) : Keeps check Q s (p.bind f) := by
  induction p generalizing s with
  | ret a => exact h
  | call e k ih =>
    intro x
    obtain ⟨s', hs', hk⟩ := h x
    exact ⟨s', hs', ih x hk⟩

/-- **Another checker.** A checker that follows the first one, in its own states, accepts
what the first one accepts. -/
theorem Keeps.follow {τ : Type} {check' : τ → Event E A → Option τ} {Q : σ → α → Prop}
    {R : τ → α → Prop} (f : σ → τ)
    (hf : ∀ {s ev s'}, check s ev = some s' → check' (f s) ev = some (f s'))
    (hQR : ∀ s a, Q s a → R (f s) a) {s : σ} {p : Prog E A α} (h : Keeps check Q s p) :
    Keeps check' R (f s) p := by
  induction p generalizing s with
  | ret a => exact hQR s a h
  | call e k ih =>
    intro x
    obtain ⟨s', hs', hk⟩ := h x
    exact ⟨f s', hf hs', ih x hk⟩

theorem Keeps.mono {Q R : σ → α → Prop} {s : σ} {p : Prog E A α} (h : Keeps check Q s p)
    (hQR : ∀ s a, Q s a → R s a) : Keeps check R s p :=
  h.follow (fun s => s) (fun hs => hs) hQR

/-- What `p` is known to keep, followed by what is known of the rest. -/
theorem Keeps.bind {P : σ → α → Prop} {Q : σ → β → Prop} {s : σ} {p : Prog E A α}
    {f : α → Prog E A β} (h : Keeps check P s p)
    (hf : ∀ s a, P s a → Keeps check Q s (f a)) : Keeps check Q s (p.bind f) :=
  keeps_bind (h.mono hf)

variable [DecidableEq E]

/-- One step of a program that keeps `check` is accepted. -/
theorem Keeps.step {Q : σ → α → Prop} {s : σ} {p q : Prog E A α} {ev : Event E A}
    (h : Keeps check Q s p) (hstep : p.step ev = some q) :
    ∃ s', check s ev = some s' ∧ Keeps check Q s' q := by
  obtain ⟨e, k, x, rfl, rfl, rfl⟩ := step_eq_some hstep
  exact h x

/-- **Every path.** The checker accepts every path of a program that keeps it. -/
theorem Keeps.run {Q : σ → α → Prop} {s : σ} {p q : Prog E A α} {tr : List (Event E A)}
    (h : Keeps check Q s p) (hrun : Steps.run Prog.step p tr = some q) :
    ∃ s', Steps.run check s tr = some s' ∧ Keeps check Q s' q := by
  induction tr generalizing s p with
  | nil =>
    obtain rfl := Option.some.inj hrun
    exact ⟨s, rfl, h⟩
  | cons ev tr ih =>
    obtain ⟨p', hp', hrest⟩ := Steps.run_cons_eq_some.mp hrun
    obtain ⟨s', hs', hk⟩ := h.step hp'
    obtain ⟨t, ht, hq⟩ := ih hk hrest
    exact ⟨t, Steps.run_cons_eq_some.mpr ⟨s', hs', ht⟩, hq⟩

/-- Where a path ends in a result, `Q` holds. -/
theorem Keeps.result {Q : σ → α → Prop} {s : σ} {p : Prog E A α} {tr : List (Event E A)} {a : α}
    (h : Keeps check Q s p) (hrun : Steps.run Prog.step p tr = some (ret a)) :
    ∃ s', Steps.run check s tr = some s' ∧ Q s' a :=
  h.run hrun

end Keeps

end Prog

end Calls
