/-
Threads that share mutexes, and a check on the order in which they take them.

A thread runs a program of a small imperative language: it takes and releases mutexes,
reads and writes shared data and its own locals, branches, loops and calls functions.
Threads are started at any time and take their steps in any order. What is left of a
thread is a stack of commands with a mark for each function it has still to return from.

`Cmd.after` goes through a program once, without its data. It keeps the list of the
mutexes that are held at each point, and refuses the program when a mutex is taken while
another is held that may not come before it. Which pairs may is a parameter, and may
depend on the functions the thread is in. Every state that threads of accepted programs
reach then keeps to these pairs, so that a ranking of the mutexes which agrees with them
rules out a cycle of waiting threads.
-/
import Yfs.Steps
import Mathlib.Logic.Relation

set_option autoImplicit false

namespace Mutexes

/-! ## Programs -/

/-- `M` are the mutexes, `F` the functions, `σ` the shared data, `ℓ` the locals of a
thread, and `ι` what reaches a thread from outside the process. -/
inductive Cmd (M F σ ℓ ι : Type) where
  | lock (m : M)
  | unlock (m : M)
  /-- A step on the data; `none`: an assertion fails. -/
  | act (f : ι → σ → ℓ → Option (σ × ℓ))
  | seq (c d : Cmd M F σ ℓ ι)
  | cond (b : σ → ℓ → Bool) (c d : Cmd M F σ ℓ ι)
  | loop (b : σ → ℓ → Bool) (c : Cmd M F σ ℓ ι)
  | call (f : F) (c : Cmd M F σ ℓ ι)

/-- What a thread has still to do: a command, or the return from a function. -/
inductive Frame (M F σ ℓ ι : Type) where
  | cmd (c : Cmd M F σ ℓ ι)
  | ret (f : F)

structure Thread (M F σ ℓ ι : Type) where
  code : List (Frame M F σ ℓ ι)
  locals : ℓ

/-- A thread is known by its position in the list. -/
structure System (M F σ ℓ ι : Type) where
  store : σ
  owner : M → Option ℕ
  threads : List (Thread M F σ ℓ ι)

variable {M F σ ℓ ι P : Type}

def start (store : σ) : System M F σ ℓ ι := ⟨store, fun _ => none, []⟩

/-- A thread is started in a program of `P`, or takes a step. -/
inductive Act (P ℓ ι : Type) where
  | spawn (p : P) (l : ℓ)
  | run (t : ℕ) (i : ι)

def System.set (s : System M F σ ℓ ι) (t : ℕ) (th : Thread M F σ ℓ ι) : System M F σ ℓ ι :=
  { s with threads := s.threads.set t th }

/-- Thread `t` goes on with a frame; `k` is the rest of its stack. -/
def advance [DecidableEq M] (s : System M F σ ℓ ι) (t : ℕ) (i : ι) (k : List (Frame M F σ ℓ ι))
    (l : ℓ) : Frame M F σ ℓ ι → Option (System M F σ ℓ ι)
  | .ret _ => some (s.set t ⟨k, l⟩)
  | .cmd (.lock m) =>
    -- a thread that has the mutex already waits for itself
    if s.owner m = none then
      some { s.set t ⟨k, l⟩ with owner := Function.update s.owner m (some t) }
    else none
  | .cmd (.unlock m) =>
    if s.owner m = some t then
      some { s.set t ⟨k, l⟩ with owner := Function.update s.owner m none }
    else none
  | .cmd (.act f) => (f i s.store l).map fun r => { s.set t ⟨k, r.2⟩ with store := r.1 }
  | .cmd (.seq c d) => some (s.set t ⟨.cmd c :: .cmd d :: k, l⟩)
  | .cmd (.cond b c d) => some (s.set t ⟨.cmd (if b s.store l then c else d) :: k, l⟩)
  | .cmd (.loop b c) =>
    some (s.set t ⟨if b s.store l then .cmd c :: .cmd (.loop b c) :: k else k, l⟩)
  | .cmd (.call f c) => some (s.set t ⟨.cmd c :: .ret f :: k, l⟩)

def step [DecidableEq M] (body : P → Cmd M F σ ℓ ι) (s : System M F σ ℓ ι) :
    Act P ℓ ι → Option (System M F σ ℓ ι)
  | .spawn p l => some { s with threads := s.threads ++ [⟨[.cmd (body p)], l⟩] }
  | .run t i =>
    match s.threads[t]? with
    | some ⟨fr :: k, l⟩ => advance s t i k l fr
    | _ => none

/-- The functions a thread is in, the innermost first. -/
def inside : List (Frame M F σ ℓ ι) → List F
  | [] => []
  | .cmd _ :: k => inside k
  | .ret f :: k => f :: inside k

theorem inside_of_advance [DecidableEq M] {s s' : System M F σ ℓ ι} {t : ℕ} {i : ι}
    {fr : Frame M F σ ℓ ι} {k : List (Frame M F σ ℓ ι)} {l : ℓ}
    (hs : advance s t i k l fr = some s') :
    ∃ code' l', s'.threads = s.threads.set t ⟨code', l'⟩
      ∧ ((∃ f c, fr = .cmd (.call f c) ∧ inside code' = f :: inside k)
        ∨ inside code' = inside k) := by
  match fr with
  | .ret f =>
    cases hs
    exact ⟨k, l, rfl, .inr rfl⟩
  | .cmd (.lock m) =>
    simp only [advance] at hs
    split at hs <;> cases hs
    exact ⟨k, l, rfl, .inr rfl⟩
  | .cmd (.unlock m) =>
    simp only [advance] at hs
    split at hs <;> cases hs
    exact ⟨k, l, rfl, .inr rfl⟩
  | .cmd (.act f) =>
    obtain ⟨r, -, rfl⟩ := Option.map_eq_some_iff.mp hs
    exact ⟨k, r.2, rfl, .inr rfl⟩
  | .cmd (.seq c d) =>
    cases hs
    exact ⟨_, l, rfl, .inr rfl⟩
  | .cmd (.cond b c d) =>
    cases hs
    exact ⟨_, l, rfl, .inr rfl⟩
  | .cmd (.loop b c) =>
    cases hs
    refine ⟨_, l, rfl, .inr ?_⟩
    split <;> rfl
  | .cmd (.call f c) =>
    cases hs
    exact ⟨_, l, rfl, .inl ⟨f, c, rfl, rfl⟩⟩

/-- Where the functions a thread is in come from. `Q` says something of the stack of calls
that stays true when another function is called. -/
theorem inside_of_step [DecidableEq M] {body : P → Cmd M F σ ℓ ι} {s s' : System M F σ ℓ ι}
    {a : Act P ℓ ι} (hs : step body s a = some s') {Q : List F → Prop} (hnil : ¬ Q [])
    (hcons : ∀ f fs, Q fs → Q (f :: fs)) (h : ∃ th ∈ s'.threads, Q (inside th.code)) :
    (∃ th ∈ s.threads, Q (inside th.code))
      ∨ ∃ t i f c k l, a = .run t i ∧ s.threads[t]? = some ⟨.cmd (.call f c) :: k, l⟩
        ∧ Q (f :: inside k) := by
  obtain ⟨th, hth, hq⟩ := h
  match a with
  | .spawn p l =>
    cases hs
    rcases List.mem_append.mp hth with hold | hnew
    · exact .inl ⟨th, hold, hq⟩
    · rw [List.mem_singleton] at hnew
      subst hnew
      exact absurd hq hnil
  | .run t i =>
    simp only [step] at hs
    split at hs
    · next fr k l ht =>
      obtain ⟨code', l', hset, hcode⟩ := inside_of_advance hs
      rw [hset] at hth
      rcases List.mem_or_eq_of_mem_set hth with hold | rfl
      · exact .inl ⟨th, hold, hq⟩
      rcases hcode with ⟨f, c, rfl, heq⟩ | heq
      · exact .inr ⟨t, i, f, c, k, l, rfl, ht, heq ▸ hq⟩
      · refine .inl ⟨_, List.mem_of_getElem? ht, ?_⟩
        rw [heq] at hq
        cases fr with
        | cmd c => exact hq
        | ret f => exact hcons f _ hq
    · cases hs

/-! ## Waiting -/

/-- The next thing thread `t` does is to take `m`. -/
def WaitsAt (s : System M F σ ℓ ι) (t : ℕ) (m : M) : Prop :=
  ∃ k l, s.threads[t]? = some ⟨.cmd (.lock m) :: k, l⟩

/-- The mutex thread `t` takes next, computed. -/
def waiting (s : System M F σ ℓ ι) (t : ℕ) : Option M :=
  match s.threads[t]? with
  | some ⟨.cmd (.lock m) :: _, _⟩ => some m
  | _ => none

theorem waitsAt_of_waiting {s : System M F σ ℓ ι} {t : ℕ} {m : M} (h : waiting s t = some m) :
    WaitsAt s t m := by
  unfold waiting at h
  split at h
  · next k l ht =>
    cases h
    exact ⟨k, l, ht⟩
  · cases h

/-- Thread `t` waits for a mutex that thread `u` holds. -/
def WaitsFor (s : System M F σ ℓ ι) (t u : ℕ) : Prop := ∃ m, WaitsAt s t m ∧ s.owner m = some u

/-- **No cycle under a ranking.** When every thread that waits for a mutex holds only
mutexes that rank below it, no thread waits for itself through others. -/
theorem no_cycle {s : System M F σ ℓ ι} (rank : M → ℕ)
    (hrank : ∀ t m h, WaitsAt s t m → s.owner h = some t → rank h < rank m) (t : ℕ) :
    ¬ Relation.TransGen (WaitsFor s) t t := by
  -- along a chain of waiting threads the mutexes only go up
  have hchain : ∀ u, Relation.TransGen (WaitsFor s) t u →
      ∃ m m', WaitsAt s t m ∧ s.owner m' = some u ∧ rank m ≤ rank m' := by
    intro u hu
    induction hu with
    | single hw =>
      obtain ⟨m, hm, hown⟩ := hw
      exact ⟨m, m, hm, hown, Nat.le_refl _⟩
    | tail _ hw ih =>
      obtain ⟨m, m', hm, hown, hle⟩ := ih
      obtain ⟨m₂, hm₂, hown₂⟩ := hw
      have hlt := hrank _ _ _ hm₂ hown
      exact ⟨m, m₂, hm, hown₂, by omega⟩
  intro hcycle
  obtain ⟨m, m', hm, hown, hle⟩ := hchain t hcycle
  have hlt := hrank t m m' hm hown
  omega

/-! ## The check -/

section Check

variable [DecidableEq M] (E : List F → M → M → Prop) [∀ fs h m, Decidable (E fs h m)]

/-- The mutexes held after a program that is run in the functions `fs` with `held`; `none`:
a mutex is taken against `E`, one that is not held is released, or what is held depends on
the data. -/
def Cmd.after (fs : List F) : Cmd M F σ ℓ ι → List M → Option (List M)
  | .lock m, held => if ∀ h ∈ held, E fs h m then some (m :: held) else none
  | .unlock m, held => if m ∈ held then some (held.erase m) else none
  | .act _, held => some held
  | .seq c d, held => (c.after fs held).bind (d.after fs)
  | .cond _ c d, held => if c.after fs held = d.after fs held then c.after fs held else none
  | .loop _ c, held => if c.after fs held = some held then some held else none
  | .call f c, held => c.after (f :: fs) held

/-- The same for a stack. -/
def after : List (Frame M F σ ℓ ι) → List M → Option (List M)
  | [], held => some held
  | .ret _ :: k, held => after k held
  | .cmd c :: k, held => (c.after E (inside k) held).bind (after k)

variable {E}

variable {k : List (Frame M F σ ℓ ι)}

theorem after_cmd {c : Cmd M F σ ℓ ι} {held res : List M} :
    after E (.cmd c :: k) held = some res
      ↔ ∃ mid, c.after E (inside k) held = some mid ∧ after E k mid = some res := by
  rw [after, Option.bind_eq_some_iff]

/-- A thread holds what its stack was checked with, and will release all of it. -/
def Holds (E : List F → M → M → Prop) [∀ fs h m, Decidable (E fs h m)] (owner : M → Option ℕ)
    (t : ℕ) (code : List (Frame M F σ ℓ ι)) : Prop :=
  ∃ held : List M, held.Nodup ∧ (∀ m, m ∈ held ↔ owner m = some t) ∧ after E code held = some []

variable (E) in
structure Inv (s : System M F σ ℓ ι) : Prop where
  threads : ∀ t th, s.threads[t]? = some th → Holds E s.owner t th.code
  owner : ∀ m t, s.owner m = some t → t < s.threads.length

theorem inv_start (store : σ) : Inv E (start store : System M F σ ℓ ι) where
  threads t th ht := by simp [start] at ht
  owner m t ht := by cases ht

variable {t : ℕ}

/-- A thread that waits holds only mutexes that may come before the one it waits for. -/
theorem Inv.edge {s : System M F σ ℓ ι} (h : Inv E s) {m : M} {l : ℓ}
    (ht : s.threads[t]? = some ⟨.cmd (.lock m) :: k, l⟩)
    {m' : M} (hown : s.owner m' = some t) : E (inside k) m' m := by
  obtain ⟨held, -, hheld, hafter⟩ := h.threads t _ ht
  obtain ⟨mid, hmid, -⟩ := after_cmd.mp hafter
  simp only [Cmd.after] at hmid
  split at hmid
  · next hall => exact hall m' ((hheld m').mpr hown)
  · cases hmid

variable {owner : M → Option ℕ}

/-- A step that leaves the mutexes alone. -/
theorem Holds.of_after {code code' : List (Frame M F σ ℓ ι)} (h : Holds E owner t code)
    (hcode : ∀ held, after E code held = some [] → after E code' held = some []) :
    Holds E owner t code' := by
  obtain ⟨held, hnd, hheld, hafter⟩ := h
  exact ⟨held, hnd, hheld, hcode held hafter⟩

theorem Holds.lock {m : M} (h : Holds E owner t (.cmd (.lock m) :: k)) (hfree : owner m = none) :
    Holds E (Function.update owner m (some t)) t k := by
  obtain ⟨held, hnd, hheld, hafter⟩ := h
  obtain ⟨mid, hmid, hrest⟩ := after_cmd.mp hafter
  simp only [Cmd.after] at hmid
  split at hmid
  · cases hmid
    have hm : m ∉ held := by
      rw [hheld, hfree]
      nofun
    refine ⟨m :: held, List.nodup_cons.mpr ⟨hm, hnd⟩, fun m' => ?_, hrest⟩
    by_cases hmm : m' = m
    · simp [hmm]
    · simp [hmm, hheld]
  · cases hmid

theorem Holds.unlock {m : M} (h : Holds E owner t (.cmd (.unlock m) :: k)) :
    Holds E (Function.update owner m none) t k := by
  obtain ⟨held, hnd, hheld, hafter⟩ := h
  obtain ⟨mid, hmid, hrest⟩ := after_cmd.mp hafter
  simp only [Cmd.after] at hmid
  split at hmid
  · cases hmid
    refine ⟨held.erase m, hnd.erase m, fun m' => ?_, hrest⟩
    rw [hnd.mem_erase_iff]
    by_cases hmm : m' = m
    · simp [hmm]
    · simp [hmm, hheld]
  · cases hmid

theorem Holds.seq {c d : Cmd M F σ ℓ ι} (h : Holds E owner t (.cmd (.seq c d) :: k)) :
    Holds E owner t (.cmd c :: .cmd d :: k) := by
  refine h.of_after fun held hafter => ?_
  obtain ⟨res, hres, hrest⟩ := after_cmd.mp hafter
  obtain ⟨mid, hmid, hd⟩ := Option.bind_eq_some_iff.mp hres
  exact after_cmd.mpr ⟨mid, hmid, after_cmd.mpr ⟨res, hd, hrest⟩⟩

theorem Holds.cond {b : σ → ℓ → Bool} {c d : Cmd M F σ ℓ ι}
    (h : Holds E owner t (.cmd (.cond b c d) :: k)) (taken : Bool) :
    Holds E owner t (.cmd (if taken then c else d) :: k) := by
  refine h.of_after fun held hafter => ?_
  obtain ⟨res, hres, hrest⟩ := after_cmd.mp hafter
  simp only [Cmd.after] at hres
  split at hres
  · next heq =>
    refine after_cmd.mpr ⟨res, ?_, hrest⟩
    split
    · exact hres
    · exact heq ▸ hres
  · cases hres

/-- Another round begins and ends with what is held now. -/
theorem Holds.loop {b : σ → ℓ → Bool} {c : Cmd M F σ ℓ ι}
    (h : Holds E owner t (.cmd (.loop b c) :: k)) (again : Bool) :
    Holds E owner t (if again then .cmd c :: .cmd (.loop b c) :: k else k) := by
  refine h.of_after fun held hafter => ?_
  have hloop := hafter
  obtain ⟨res, hres, hrest⟩ := after_cmd.mp hafter
  simp only [Cmd.after] at hres
  split at hres
  · next hbody =>
    cases hres
    split
    · exact after_cmd.mpr ⟨held, hbody, hloop⟩
    · exact hrest
  · cases hres

theorem Holds.call {f : F} {c : Cmd M F σ ℓ ι} (h : Holds E owner t (.cmd (.call f c) :: k)) :
    Holds E owner t (.cmd c :: .ret f :: k) := by
  refine h.of_after fun held hafter => ?_
  obtain ⟨res, hres, hrest⟩ := after_cmd.mp hafter
  exact after_cmd.mpr ⟨res, hres, hrest⟩

/-- A mutex that thread `t` takes or releases is nobody else's, before and after. -/
theorem update_owner_iff {m : M} {t u : ℕ} {o : Option ℕ} (hu : u ≠ t)
    (hm : owner m = none ∨ owner m = some t) (ho : o = none ∨ o = some t) (m' : M) :
    Function.update owner m o m' = some u ↔ owner m' = some u := by
  by_cases hmm : m' = m
  · subst hmm
    rw [Function.update_self]
    rcases hm with hm | hm <;> rcases ho with rfl | rfl <;> simp [hm, hu.symm]
  · rw [Function.update_of_ne hmm]

/-- Another thread sees the same mutexes as its own. -/
theorem Holds.frame {owner owner' : M → Option ℕ} {u : ℕ} {code : List (Frame M F σ ℓ ι)}
    (h : Holds E owner u code) (hsame : ∀ m, owner' m = some u ↔ owner m = some u) :
    Holds E owner' u code := by
  obtain ⟨held, hnd, hheld, hafter⟩ := h
  exact ⟨held, hnd, fun m => (hheld m).trans (hsame m).symm, hafter⟩

/-- A step of one thread that may change the owner of a mutex it takes or releases. -/
theorem Inv.set {s : System M F σ ℓ ι} (h : Inv E s) (ht : t < s.threads.length)
    {th : Thread M F σ ℓ ι} {store : σ} (hth : Holds E owner t th.code)
    (hothers : ∀ u, u ≠ t → ∀ m, owner m = some u ↔ s.owner m = some u) :
    Inv E { s.set t th with owner := owner, store := store } where
  threads u th' hu := by
    simp only [System.set, List.getElem?_set] at hu
    split at hu
    · next heq =>
      subst heq
      cases hu
      exact hth
    · next hne => exact (h.threads u th' hu).frame (hothers u fun heq => hne heq.symm)
  owner m u hu := by
    rw [System.set, List.length_set]
    by_cases hut : u = t
    · exact hut ▸ ht
    · exact h.owner m u ((hothers u hut m).mp hu)

/-- The steps of one thread. -/
theorem inv_advance {s s' : System M F σ ℓ ι} (h : Inv E s) {i : ι} {fr : Frame M F σ ℓ ι} {l : ℓ}
    (ht : s.threads[t]? = some ⟨fr :: k, l⟩) (hs : advance s t i k l fr = some s') : Inv E s' := by
  have hlt : t < s.threads.length := (List.getElem?_eq_some_iff.mp ht).1
  have hth : Holds E s.owner t (fr :: k) := h.threads t _ ht
  have hsame : ∀ u, u ≠ t → ∀ m, s.owner m = some u ↔ s.owner m = some u :=
    fun _ _ _ => Iff.rfl
  match fr with
  | .ret f =>
    cases hs
    exact h.set hlt (hth.of_after fun _ => id) hsame
  | .cmd (.lock m) =>
    simp only [advance] at hs
    split at hs
    · next hfree =>
      cases hs
      refine h.set hlt (hth.lock hfree) fun u hu m' => ?_
      exact update_owner_iff hu (.inl hfree) (.inr rfl) m'
    · cases hs
  | .cmd (.unlock m) =>
    simp only [advance] at hs
    split at hs
    · next hmine =>
      cases hs
      refine h.set hlt hth.unlock fun u hu m' => ?_
      exact update_owner_iff hu (.inr hmine) (.inl rfl) m'
    · cases hs
  | .cmd (.act f) =>
    obtain ⟨r, -, rfl⟩ := Option.map_eq_some_iff.mp hs
    exact h.set hlt (hth.of_after fun _ => id) hsame
  | .cmd (.seq c d) =>
    cases hs
    exact h.set hlt hth.seq hsame
  | .cmd (.cond b c d) =>
    cases hs
    exact h.set hlt (hth.cond _) hsame
  | .cmd (.loop b c) =>
    cases hs
    exact h.set hlt (hth.loop _) hsame
  | .cmd (.call f c) =>
    cases hs
    exact h.set hlt hth.call hsame

/-- **One step** of threads whose programs pass the check. -/
theorem inv_step {body : P → Cmd M F σ ℓ ι} (hbody : ∀ p, (body p).after E [] [] = some [])
    (s : System M F σ ℓ ι) (a : Act P ℓ ι) (s' : System M F σ ℓ ι) (h : Inv E s)
    (hs : step body s a = some s') : Inv E s' := by
  match a with
  | .spawn p l =>
    cases hs
    refine ⟨fun t th ht => ?_, fun m t ht => ?_⟩
    · rw [List.getElem?_append] at ht
      split at ht
      · exact h.threads t th ht
      · next hge =>
        rw [List.getElem?_singleton] at ht
        split at ht
        · cases ht
          -- the new thread holds nothing
          refine ⟨[], List.nodup_nil, fun m => ?_, after_cmd.mpr ⟨[], hbody p, rfl⟩⟩
          refine iff_of_false List.not_mem_nil fun hown => ?_
          exact absurd (h.owner m t hown) hge
        · cases ht
    · have hlt := h.owner m t ht
      rw [List.length_append]
      omega
  | .run t i =>
    simp only [step] at hs
    split at hs
    · next fr k l ht => exact inv_advance h ht hs
    · cases hs

end Check

end Mutexes
