/-
How many items of a list refer to an object.

An item refers to one object or to none. A counter that is kept in step with these
numbers changes by one where an item is added, is replaced, or lets go; the lemmas say by
how much each change of the list moves the number. The objects themselves are in a table
that has something at some of its keys.
-/
import Mathlib.Data.List.Basic
import Mathlib.Logic.Function.Basic

set_option autoImplicit false

namespace Refs

variable {α ι : Type*}

/-- Replacing an item moves a count by what it counted before and after. -/
theorem countP_set_add {p : α → Bool} {l : List α} {i : ℕ} {a : α} (h : l[i]? = some a) (b : α) :
    (l.set i b).countP p + (if p a then 1 else 0) = l.countP p + (if p b then 1 else 0) := by
  induction l generalizing i with
  | nil => cases h
  | cons x l ih =>
    cases i with
    | zero =>
      obtain rfl : x = a := Option.some.inj h
      rw [List.set_cons_zero, List.countP_cons, List.countP_cons]
      omega
    | succ i =>
      have hrest := ih (i := i) h
      rw [List.set_cons_succ, List.countP_cons, List.countP_cons]
      omega

/-- What the items of a list weigh together. -/
def total (w : α → ℕ) (l : List α) : ℕ := l.foldr (fun a n => w a + n) 0

/-- Replacing an item takes its weight away and adds the weight of the new one. -/
theorem total_set {w : α → ℕ} {l : List α} {i : ℕ} {a : α} (h : l[i]? = some a) (b : α) :
    total w (l.set i b) + w a = total w l + w b := by
  induction l generalizing i with
  | nil => cases h
  | cons x l ih =>
    cases i with
    | zero =>
      obtain rfl : x = a := Option.some.inj h
      rw [List.set_cons_zero, total, total, List.foldr_cons, List.foldr_cons]
      omega
    | succ i =>
      have hrest : total w (l.set i b) + w a = total w l + w b := ih h
      show w x + total w (l.set i b) + w a = w x + total w l + w b
      omega

/-- Replacing an item by one that looks the same changes nothing of what is seen. -/
theorem map_set_same {β : Type*} {f : α → β} {l : List α} {i : ℕ} {a b : α} (h : l[i]? = some a)
    (heq : f b = f a) : (l.set i b).map f = l.map f := by
  have hlt : i < l.length := (List.getElem?_eq_some_iff.mp h).1
  apply List.ext_getElem?
  intro k
  rw [List.getElem?_map, List.getElem?_map]
  by_cases hk : k = i
  · subst hk
    rw [List.getElem?_set_self hlt, h, Option.map_some, Option.map_some, heq]
  · rw [List.getElem?_set_ne (Ne.symm hk)]

variable [DecidableEq ι]

/-- Is the reference one to `c`? -/
def one (r : Option ι) (c : ι) : ℕ := if r = some c then 1 else 0

@[simp] theorem one_none (c : ι) : one none c = 0 := rfl

/-- How many items refer to `c`. -/
def refs (f : α → Option ι) (l : List α) (c : ι) : ℕ := l.countP fun x => f x = some c

variable {f : α → Option ι} {l : List α}

theorem refs_append_singleton (f : α → Option ι) (l : List α) (x : α) (c : ι) :
    refs f (l ++ [x]) c = refs f l c + one (f x) c := by
  unfold refs one
  rw [List.countP_append, List.countP_singleton]
  simp

theorem refs_set {i : ℕ} {a : α} (h : l[i]? = some a) (b : α) (c : ι) :
    refs f (l.set i b) c + one (f a) c = refs f l c + one (f b) c := by
  have hset := countP_set_add (p := fun x => decide (f x = some c)) h b
  simp only [decide_eq_true_eq] at hset
  exact hset

theorem refs_eq_zero (h : ∀ x ∈ l, f x = none) (c : ι) : refs f l c = 0 := by
  refine List.countP_eq_zero.mpr ?_
  intro x hx hc
  rw [h x hx] at hc
  cases of_decide_eq_true hc

theorem one_le_refs {x : α} {c : ι} (hx : x ∈ l) (h : f x = some c) : 1 ≤ refs f l c :=
  List.countP_pos_iff.mpr ⟨x, hx, decide_eq_true h⟩

/-- What is in a table of which one entry was set. -/
theorem update_eq_some {t : ι → Option α} {x y : ι} {e : Option α} {a : α}
    (h : Function.update t x e y = some a) : (y = x ∧ e = some a) ∨ (y ≠ x ∧ t y = some a) := by
  by_cases hyx : y = x
  · subst hyx
    rw [Function.update_self] at h
    exact .inl ⟨rfl, h⟩
  · rw [Function.update_of_ne hyx] at h
    exact .inr ⟨hyx, h⟩

end Refs
