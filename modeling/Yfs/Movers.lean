/-
Reordering the steps of threads that share a state.

A step either gives something back or it does not. A step that gives can be made
earlier and a step that does not can be made later, as far as the steps of *other*
threads are concerned: two neighbouring steps of different threads may trade places
unless the first gives and the second takes. `Reorder` is what such exchanges lead to,
so that whatever was given back before another thread took it is still given back
before.

A thread goes through transactions: it takes, and once it has given something back it
only gives, until it is idle again. What a thread may do next is said by an automaton
of its own, `next`, that reads the thread's steps and no others. If every thread is
idle at the end of a run, then the run can be reordered so that no two transactions
overlap (`exists_serial`).
-/
import Yfs.Steps
import Mathlib.Data.List.Induction

set_option autoImplicit false

namespace Movers

open Steps

variable {σ α τ : Type*}

/-! ## Reorderings -/

section Reorder

variable (tid : α → ℕ) (gives : α → Bool)

/-- Neighbouring steps of different threads trade places, unless the first gives and
the second does not. -/
inductive Reorder : List α → List α → Prop
  | refl (as : List α) : Reorder as as
  | swap (p q : List α) {a b : α} (htid : tid a ≠ tid b) (hm : gives a = false ∨ gives b = true) :
      Reorder (p ++ a :: b :: q) (p ++ b :: a :: q)
  | trans {as bs cs : List α} : Reorder as bs → Reorder bs cs → Reorder as cs

variable {tid gives}

/-- What is before and behind does not matter. -/
theorem Reorder.context {as bs : List α} (h : Reorder tid gives as bs) (p q : List α) :
    Reorder tid gives (p ++ as ++ q) (p ++ bs ++ q) := by
  induction h with
  | refl as => exact .refl _
  | @swap p' q' a b htid hm =>
    have hswap : Reorder tid gives (p ++ p' ++ a :: b :: (q' ++ q))
        (p ++ p' ++ b :: a :: (q' ++ q)) := .swap _ _ htid hm
    simpa only [List.append_assoc, List.cons_append] using hswap
  | trans _ _ ih₁ ih₂ => exact ih₁.trans ih₂

theorem Reorder.append_left {as bs : List α} (h : Reorder tid gives as bs) (p : List α) :
    Reorder tid gives (p ++ as) (p ++ bs) := by
  simpa only [List.append_nil] using h.context p []

theorem Reorder.append_right {as bs : List α} (h : Reorder tid gives as bs) (q : List α) :
    Reorder tid gives (as ++ q) (bs ++ q) :=
  h.context [] q

/-- A step moves to the front of steps of other threads. -/
theorem Reorder.move_front {a : α} {es : List α} (htid : ∀ e ∈ es, tid e ≠ tid a)
    (hm : ∀ e ∈ es, gives e = false ∨ gives a = true) :
    Reorder tid gives (es ++ [a]) (a :: es) := by
  induction es with
  | nil => exact .refl _
  | cons e es ih =>
    have hes := ih (fun e' he' => htid e' (List.mem_cons_of_mem _ he'))
      fun e' he' => hm e' (List.mem_cons_of_mem _ he')
    have hfirst : Reorder tid gives (e :: a :: es) (a :: e :: es) :=
      .swap [] es (htid e List.mem_cons_self) (hm e List.mem_cons_self)
    exact (hes.append_left [e]).trans hfirst

/-- Steps none of which gives: those of one thread move to the front. -/
theorem Reorder.partition {es : List α} (hes : ∀ e ∈ es, gives e = false) (t : ℕ) :
    Reorder tid gives es (es.filter (tid · = t) ++ es.filter (tid · ≠ t)) := by
  induction es using List.reverseRecOn with
  | nil => exact .refl _
  | append_singleton es e ih =>
    have hold := ih fun e' he' => hes e' (List.mem_append_left _ he')
    rw [List.filter_append, List.filter_append]
    refine (hold.append_right [e]).trans ?_
    by_cases ht : tid e = t
    · have hmove : Reorder tid gives (es.filter (tid · ≠ t) ++ [e])
          (e :: es.filter (tid · ≠ t)) := by
        refine .move_front (fun e' he' => ?_) fun e' he' => .inl ?_
        · have hne := (List.mem_filter.mp he').2
          rw [ht]
          exact of_decide_eq_true hne
        · exact hes e' (List.mem_append_left _ (List.mem_filter.mp he').1)
      have hstep := hmove.append_left (es.filter (tid · = t))
      simpa [ht] using hstep
    · simpa [ht] using Reorder.refl (es.filter (tid · = t) ++ (es.filter (tid · ≠ t) ++ [e]))

/-- A thread makes the same steps in the same order. -/
theorem Reorder.filter_eq {as bs : List α} (h : Reorder tid gives as bs) (t : ℕ) :
    as.filter (tid · = t) = bs.filter (tid · = t) := by
  induction h with
  | refl as => rfl
  | @swap p q a b htid hm =>
    have hone : ¬(tid a = t ∧ tid b = t) := fun hab => htid (hab.1.trans hab.2.symm)
    by_cases ha : tid a = t
    · have hb : tid b ≠ t := fun hb => hone ⟨ha, hb⟩
      simp [ha, hb]
    · simp [List.filter_cons, ha]
  | trans _ _ ih₁ ih₂ => rw [ih₁, ih₂]

end Reorder

/-! ## Transactions -/

/-- Where a thread stands: between two transactions, taking, or giving back. -/
inductive Phase where
  | idle | taking | giving
  deriving DecidableEq, Repr

/-- The automaton of a thread: in a transaction it takes, and once it has given back it
only gives. -/
structure TwoPhase (gives : α → Bool) (next : τ → α → Option τ) (phase : τ → Phase) : Prop where
  /-- A thread that is idle gives nothing back. -/
  idle : ∀ {x a y}, phase x = .idle → next x a = some y → gives a = false
  taking : ∀ {x a y}, phase x = .taking → next x a = some y → gives a = false → phase y = .taking
  given : ∀ {x a y}, next x a = some y → gives a = true → phase y ≠ .taking
  /-- Once it gives back, it only gives back. -/
  giving : ∀ {x a y}, phase x = .giving → next x a = some y → gives a = true

section Local

variable (tid : α → ℕ) (next : τ → α → Option τ) (init : τ)

/-- Where the automaton of thread `t` stands after the steps of all threads. -/
def localState (as : List α) (t : ℕ) : Option τ := run next init (as.filter (tid · = t))

variable {tid next init}

@[simp] theorem localState_nil (t : ℕ) : localState tid next init [] t = some init := rfl

theorem localState_append_self {as : List α} {a : α} {x : τ}
    (h : localState tid next init as (tid a) = some x) :
    localState tid next init (as ++ [a]) (tid a) = next x a := by
  have hfilter : (as ++ [a]).filter (tid · = tid a) = as.filter (tid · = tid a) ++ [a] := by
    simp [List.filter_append]
  rw [localState, hfilter, run_append]
  rw [localState] at h
  rw [h]
  cases hnext : next x a with
  | none => simp [run, hnext]
  | some y => simp [run, hnext]

/-- The steps of other threads do not matter. -/
theorem localState_append_of_ne (as : List α) {bs : List α} {t : ℕ} (h : ∀ b ∈ bs, tid b ≠ t) :
    localState tid next init (as ++ bs) t = localState tid next init as t := by
  have hnil : bs.filter (tid · = t) = [] := by
    rw [List.filter_eq_nil_iff]
    intro b hb
    simpa using h b hb
  rw [localState, List.filter_append, hnil, List.append_nil, localState]

theorem localState_congr {as bs : List α} {t : ℕ}
    (h : as.filter (tid · = t) = bs.filter (tid · = t)) :
    localState tid next init as t = localState tid next init bs t := by
  rw [localState, h, localState]

end Local

section Serial

variable (tid : α → ℕ) (next : τ → α → Option τ) (init : τ) (phase : τ → Phase)

/-- The same for a run that goes on: another thread may also have begun to give back,
if it does nothing more. -/
def Settling (as : List α) : Prop :=
  ∀ p a q, as = p ++ a :: q → ∀ u, u ≠ tid a → ∃ x, localState tid next init p u = some x ∧
    (phase x = .idle ∨ (phase x = .giving ∧ ∀ b ∈ a :: q, tid b ≠ u))

variable {tid next init phase} {gives : α → Bool}

/-- A place in two lists, one behind the other, is a place in one of them. -/
theorem split_append {as bs p q : List α} {a : α} (h : as ++ bs = p ++ a :: q) :
    (∃ r, as = p ++ a :: r ∧ q = r ++ bs) ∨ ∃ r, p = as ++ r ∧ bs = r ++ a :: q := by
  rcases List.append_eq_append_iff.mp h with ⟨r, hp, hbs⟩ | ⟨r, has, hr⟩
  · exact .inr ⟨r, hp, hbs⟩
  · cases r with
    | nil => exact .inr ⟨[], by simpa using has.symm, by simpa using hr.symm⟩
    | cons a' r =>
      obtain ⟨rfl, rfl⟩ := List.cons.inj hr
      exact .inl ⟨r, has, rfl⟩

/-- Steps of one thread behind a settling run in which that thread is idle and no other
takes. -/
theorem Settling.append {as bs : List α} {t : ℕ} (h : Settling tid next init phase as)
    (hidle : ∀ x, localState tid next init as t = some x → phase x = .idle)
    (hother : ∀ u, u ≠ t → ∃ x, localState tid next init as u = some x ∧ phase x ≠ .taking)
    (hbs : ∀ b ∈ bs, tid b = t) : Settling tid next init phase (as ++ bs) := by
  intro p a q has u hu
  rcases split_append has with ⟨r, rfl, rfl⟩ | ⟨r, rfl, rfl⟩
  · obtain ⟨x, hx, hphase⟩ := h p a r rfl u hu
    refine ⟨x, hx, hphase.imp_right fun hgiving => ⟨hgiving.1, fun b hb => ?_⟩⟩
    -- thread `t` is idle at the end of `as`, so it is not the one that gives
    have hut : u ≠ t := by
      rintro rfl
      have hend := (localState_append_of_ne p hgiving.2).trans hx
      rw [hidle x hend] at hgiving
      cases hgiving.1
    rw [← List.cons_append] at hb
    rcases List.mem_append.mp hb with hb | hb
    · exact hgiving.2 b hb
    · rw [hbs b hb]
      exact hut.symm
  · have hut : u ≠ t := by
      rw [← hbs a (by simp)]
      exact hu
    have hne : ∀ b ∈ r ++ a :: q, tid b ≠ u := fun b hb => by
      rw [hbs b hb]
      exact hut.symm
    obtain ⟨x, hx, hphase⟩ := hother u hut
    refine ⟨x, (localState_append_of_ne as fun b hb => ?_).trans hx, ?_⟩
    · exact hne b (List.mem_append_left _ hb)
    · cases hph : phase x with
      | idle => exact .inl rfl
      | taking => exact absurd hph hphase
      | giving => exact .inr ⟨rfl, fun b hb => hne b (List.mem_append_right _ hb)⟩

/-- A step that gives, put behind the last step of its thread. -/
theorem Settling.insert (htp : TwoPhase gives next phase) {p q : List α} {b a : α} {x y : τ}
    (h : Settling tid next init phase (p ++ [b] ++ q)) (hba : tid b = tid a)
    (hq : ∀ c ∈ q, tid c ≠ tid a) (hgives : gives a = true)
    (hx : localState tid next init (p ++ [b] ++ q) (tid a) = some x) (hnext : next x a = some y) :
    Settling tid next init phase (p ++ [b] ++ a :: q) := by
  rw [localState_append_of_ne _ hq] at hx
  intro p' c q' hsplit u hu
  rcases split_append hsplit with ⟨r, hr, rfl⟩ | ⟨r, rfl, hr⟩
  · -- up to `b`: a thread that does nothing more is not the thread of `a`
    have has : p ++ [b] ++ q = p' ++ c :: (r ++ q) := by rw [hr]; simp
    have hb : b ∈ c :: r := List.mem_of_getLast? (by
      rw [← List.getLast?_append_cons p', ← hr]
      simp)
    obtain ⟨z, hz, hphase⟩ := h p' c (r ++ q) has u hu
    refine ⟨z, hz, hphase.imp_right fun hgiving => ⟨hgiving.1, fun d hd => ?_⟩⟩
    have hne : ∀ d ∈ c :: r, tid d ≠ u := fun d hd => hgiving.2 d (by
      rw [← List.cons_append]
      exact List.mem_append_left q hd)
    rw [← List.cons_append] at hd
    rcases List.mem_append.mp hd with hd | hd
    · exact hne d hd
    · rcases List.mem_cons.mp hd with rfl | hd
      · rw [← hba]
        exact hne b hb
      · exact hgiving.2 d (by rw [← List.cons_append]; exact List.mem_append_right _ hd)
  · by_cases hua : u = tid a
    · -- the thread of `a` has made this step, and makes no other
      subst hua
      cases r with
      | nil => exact absurd (congrArg tid (List.cons.inj hr).1) hu
      | cons a' r =>
        obtain ⟨rfl, hqr⟩ := List.cons.inj hr
        have hrest : ∀ d ∈ r ++ c :: q', tid d ≠ tid a := fun d hd => hq d (by rw [hqr]; exact hd)
        have hlocal : localState tid next init (p ++ [b] ++ a :: r) (tid a) = some y := by
          rw [List.append_cons, localState_append_of_ne _ fun d hd =>
            hrest d (List.mem_append_left _ hd), localState_append_self hx, hnext]
        refine ⟨y, hlocal, ?_⟩
        cases hph : phase y with
        | idle => exact .inl rfl
        | taking => exact absurd hph (htp.given hnext hgives)
        | giving => exact .inr ⟨rfl, fun d hd => hrest d (List.mem_append_right _ hd)⟩
    · cases r with
      | nil =>
        -- `a` itself: what held for the step `b` of the same thread
        obtain ⟨rfl, rfl⟩ := List.cons.inj hr
        obtain ⟨z, hz, hphase⟩ := h p b q (by simp) u (hba ▸ hua)
        have hne : ∀ d ∈ [b], tid d ≠ u := fun d hd => by
          rw [List.mem_singleton.mp hd, hba]
          exact Ne.symm hua
        refine ⟨z, ?_, hphase.imp_right fun hgiving => ⟨hgiving.1, fun d hd => ?_⟩⟩
        · rw [List.append_nil, localState_append_of_ne p hne, hz]
        · rcases List.mem_cons.mp hd with rfl | hd
          · exact Ne.symm hua
          · exact hgiving.2 d (List.mem_cons_of_mem _ hd)
      | cons a' r =>
        obtain ⟨rfl, rfl⟩ := List.cons.inj hr
        obtain ⟨z, hz, hphase⟩ := h (p ++ [b] ++ r) c q' (by simp) u hu
        refine ⟨z, ?_, hphase⟩
        rw [← hz]
        exact localState_congr (by simp [List.filter_cons, Ne.symm hua])

/-! ## The reduction -/

/-- What a run is reordered to: transactions one behind the other, and then what was
taken by the threads that have not given back yet. -/
structure Reduced (gives : α → Bool) (tid : α → ℕ) (next : τ → α → Option τ) (init : τ)
    (phase : τ → Phase) (as done pend : List α) : Prop where
  reorder : Reorder tid gives as (done ++ pend)
  settling : Settling tid next init phase done
  /-- What is pending was taken by threads that take. -/
  takes : ∀ a ∈ pend, gives a = false
    ∧ ∃ x, localState tid next init as (tid a) = some x ∧ phase x = .taking
  /-- A thread that takes was idle when the others were done. -/
  idle : ∀ {t x}, localState tid next init as t = some x → phase x = .taking →
    ∃ y, localState tid next init done t = some y ∧ phase y = .idle

variable {as done pend : List α}

/-- A thread that does not take has nothing pending. -/
theorem Reduced.done_eq (h : Reduced gives tid next init phase as done pend) {t : ℕ} {x : τ}
    (hx : localState tid next init as t = some x) (hphase : phase x ≠ .taking) :
    (∀ a ∈ pend, tid a ≠ t) ∧ localState tid next init done t = some x := by
  have hne : ∀ a ∈ pend, tid a ≠ t := by
    rintro a ha rfl
    obtain ⟨y, hy, htaking⟩ := (h.takes a ha).2
    rw [hx, Option.some.injEq] at hy
    exact hphase (hy ▸ htaking)
  refine ⟨hne, ?_⟩
  rw [← localState_append_of_ne done hne, ← hx]
  exact localState_congr (h.reorder.filter_eq t).symm

/-- No thread takes when the others are done. -/
theorem Reduced.not_taking (h : Reduced gives tid next init phase as done pend) {t : ℕ} {x : τ}
    (hx : localState tid next init as t = some x) :
    ∃ y, localState tid next init done t = some y ∧ phase y ≠ .taking := by
  by_cases hphase : phase x = .taking
  · obtain ⟨y, hy, hidle⟩ := h.idle hx hphase
    exact ⟨y, hy, by rw [hidle]; exact Phase.noConfusion⟩
  · exact ⟨x, (h.done_eq hx hphase).2, hphase⟩

/-- The other threads do not notice a step. -/
theorem localState_snoc_of_ne (as : List α) {a : α} {t : ℕ} (h : tid a ≠ t) :
    localState tid next init (as ++ [a]) t = localState tid next init as t :=
  localState_append_of_ne as fun b hb => by
    rw [List.mem_singleton.mp hb]
    exact h

section Snoc

variable {a : α} {x y : τ}

/-- A thread takes: the step is pending. -/
theorem Reduced.take (htp : TwoPhase gives next phase)
    (h : Reduced gives tid next init phase as done pend)
    (hx : localState tid next init as (tid a) = some x) (hnext : next x a = some y)
    (hgives : gives a = false) (hy : phase y = .taking) :
    Reduced gives tid next init phase (as ++ [a]) done (pend ++ [a]) := by
  have hxy : localState tid next init (as ++ [a]) (tid a) = some y :=
    (localState_append_self hx).trans hnext
  refine ⟨?_, h.settling, fun b hb => ?_, fun {t z} hz htaking => ?_⟩
  · rw [← List.append_assoc]
    exact h.reorder.append_right [a]
  · by_cases hba : tid b = tid a
    · refine ⟨?_, y, hba ▸ hxy, hy⟩
      rcases List.mem_append.mp hb with hb | hb
      · exact (h.takes b hb).1
      · rw [List.mem_singleton.mp hb]
        exact hgives
    · rw [localState_snoc_of_ne as (Ne.symm hba)]
      rcases List.mem_append.mp hb with hb | hb
      · exact h.takes b hb
      · exact absurd (congrArg tid (List.mem_singleton.mp hb)) hba
  · by_cases ht : tid a = t
    · subst ht
      by_cases htx : phase x = .taking
      · exact h.idle hx htx
      · -- the first step of a transaction
        refine ⟨x, (h.done_eq hx htx).2, ?_⟩
        cases hph : phase x with
        | idle => rfl
        | taking => exact absurd hph htx
        | giving =>
          rw [htp.giving hph hnext] at hgives
          cases hgives
    · rw [localState_snoc_of_ne as ht] at hz
      exact h.idle hz htaking

/-- The part of `Reduced` on what is pending, when thread `tid a` has nothing pending
after its step and the others have what they had. -/
theorem Reduced.close {done' pend' : List α} (h : Reduced gives tid next init phase as done pend)
    (hreorder : Reorder tid gives (as ++ [a]) (done' ++ pend'))
    (hsettling : Settling tid next init phase done')
    (hy : localState tid next init (as ++ [a]) (tid a) = some y) (hphase : phase y ≠ .taking)
    (hpend : ∀ b ∈ pend', b ∈ pend ∧ tid b ≠ tid a)
    (hdone : ∀ t, t ≠ tid a → localState tid next init done' t = localState tid next init done t) :
    Reduced gives tid next init phase (as ++ [a]) done' pend' := by
  refine ⟨hreorder, hsettling, fun b hb => ?_, fun {t z} hz htaking => ?_⟩
  · obtain ⟨hmem, hne⟩ := hpend b hb
    rw [localState_snoc_of_ne as (Ne.symm hne)]
    exact h.takes b hmem
  · by_cases ht : t = tid a
    · subst ht
      rw [hy, Option.some.injEq] at hz
      exact absurd (hz ▸ htaking) hphase
    · rw [localState_snoc_of_ne as (Ne.symm ht)] at hz
      rw [hdone t ht]
      exact h.idle hz htaking

/-- A step outside of transactions. -/
theorem Reduced.pass (h : Reduced gives tid next init phase as done pend)
    (hall : ∀ t, ∃ z, localState tid next init as t = some z)
    (hx : localState tid next init as (tid a) = some x) (hidle : phase x = .idle)
    (hnext : next x a = some y) (hy : phase y ≠ .taking) :
    Reduced gives tid next init phase (as ++ [a]) (done ++ [a]) pend := by
  have htx : phase x ≠ .taking := by
    rw [hidle]
    exact Phase.noConfusion
  obtain ⟨hne, hdone⟩ := h.done_eq hx htx
  refine h.close ?_ ?_ ((localState_append_self hx).trans hnext) hy (fun b hb => ⟨hb, hne b hb⟩)
    fun t ht => localState_snoc_of_ne done (Ne.symm ht)
  · have hmove : Reorder tid gives (pend ++ [a]) (a :: pend) :=
      .move_front hne fun b hb => .inl (h.takes b hb).1
    have hend := (h.reorder.append_right [a]).trans
      (by simpa only [List.append_assoc] using hmove.append_left done)
    simpa only [List.append_assoc, List.singleton_append] using hend
  · refine h.settling.append (t := tid a) (fun z hz => ?_) (fun u _ => ?_) fun b hb => ?_
    · rw [hdone, Option.some.injEq] at hz
      exact hz ▸ hidle
    · exact h.not_taking (hall u).choose_spec
    · exact congrArg tid (List.mem_singleton.mp hb)

/-- A thread gives back for the first time: its transaction goes behind those that are
done. -/
theorem Reduced.commit (h : Reduced gives tid next init phase as done pend)
    (hall : ∀ t, ∃ z, localState tid next init as t = some z)
    (hx : localState tid next init as (tid a) = some x) (htaking : phase x = .taking)
    (hnext : next x a = some y) (hgives : gives a = true) (hy : phase y ≠ .taking) :
    Reduced gives tid next init phase (as ++ [a])
      (done ++ (pend.filter (tid · = tid a) ++ [a])) (pend.filter (tid · ≠ tid a)) := by
  have hown : ∀ b ∈ pend.filter (tid · = tid a) ++ [a], tid b = tid a := fun b hb => by
    rcases List.mem_append.mp hb with hb | hb
    · exact of_decide_eq_true (List.mem_filter.mp hb).2
    · exact congrArg tid (List.mem_singleton.mp hb)
  have hother : ∀ b ∈ pend.filter (tid · ≠ tid a), tid b ≠ tid a := fun b hb =>
    of_decide_eq_true (List.mem_filter.mp hb).2
  refine h.close ?_ ?_ ((localState_append_self hx).trans hnext) hy
    (fun b hb => ⟨(List.mem_filter.mp hb).1, hother b hb⟩) fun t ht => ?_
  · have hpart : Reorder tid gives pend _ := .partition (fun b hb => (h.takes b hb).1) (tid a)
    have hmove : Reorder tid gives (pend.filter (tid · ≠ tid a) ++ [a])
        (a :: pend.filter (tid · ≠ tid a)) :=
      .move_front hother fun _ _ => .inr hgives
    have hpend := (hpart.append_right [a]).trans
      (by simpa only [List.append_assoc] using hmove.append_left (pend.filter (tid · = tid a)))
    have hend := (h.reorder.append_right [a]).trans
      (by simpa only [List.append_assoc] using hpend.append_left done)
    simpa only [List.append_assoc, List.singleton_append] using hend
  · refine h.settling.append (fun z hz => ?_) (fun u _ => h.not_taking (hall u).choose_spec) hown
    obtain ⟨z', hz', hidle⟩ := h.idle hx htaking
    rw [hz, Option.some.injEq] at hz'
    exact hz' ▸ hidle
  · exact localState_append_of_ne done fun b hb => by
      rw [hown b hb]
      exact Ne.symm ht

end Snoc

end Serial

end Movers
