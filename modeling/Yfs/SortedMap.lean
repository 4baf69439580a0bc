/-
A finite map kept as a list in the order of its keys.

The list is strictly increasing in its keys, so two maps with the same entries are equal.
`insert` puts a value at its place, or replaces the value of a key that is there; a key
beyond all others goes to the end, which is what a map that is read back in its own order
needs.
-/
import Mathlib.Data.Prod.Lex
import Mathlib.Order.Lex
import Mathlib.Data.List.Lex

set_option autoImplicit false

/-- The keys increase strictly. -/
def SortedMap.KeysIncrease {κ α : Type} [LT κ] (l : List (κ × α)) : Prop :=
  l.Pairwise fun p q => p.1 < q.1

@[ext] structure SortedMap (κ α : Type) [LinearOrder κ] where
  entries : List (κ × α)
  increase : SortedMap.KeysIncrease entries

namespace SortedMap

variable {κ α : Type} [LinearOrder κ]

def empty : SortedMap κ α := ⟨[], .nil⟩

def insertEntry (a : κ) (b : α) : List (κ × α) → List (κ × α)
  | [] => [(a, b)]
  | p :: l => if a < p.1 then (a, b) :: p :: l else if a = p.1 then (a, b) :: l
      else p :: insertEntry a b l

/-- Nothing but the new key is added. -/
theorem mem_insertEntry {a : κ} {b : α} {l : List (κ × α)} {p : κ × α}
    (h : p ∈ insertEntry a b l) : p = (a, b) ∨ p ∈ l := by
  induction l with
  | nil => exact .inl (List.mem_singleton.mp h)
  | cons q l ih =>
    rw [insertEntry] at h
    split at h
    · exact List.mem_cons.mp h
    · split at h
      · exact (List.mem_cons.mp h).imp_right (List.mem_cons_of_mem _)
      · rcases List.mem_cons.mp h with rfl | h
        · exact .inr List.mem_cons_self
        · exact (ih h).imp_right (List.mem_cons_of_mem _)

theorem increase_insertEntry (a : κ) (b : α) {l : List (κ × α)} (h : KeysIncrease l) :
    KeysIncrease (insertEntry a b l) := by
  induction l with
  | nil => exact List.pairwise_singleton ..
  | cons p l ih =>
    obtain ⟨hp, hl⟩ := List.pairwise_cons.mp h
    rw [insertEntry]
    split
    · next hlt =>
      refine List.pairwise_cons.mpr ⟨fun q hq => ?_, h⟩
      rcases List.mem_cons.mp hq with rfl | hq
      · exact hlt
      · exact hlt.trans (hp q hq)
    · next hle =>
      split
      · next heq => exact List.pairwise_cons.mpr ⟨fun q hq => heq ▸ hp q hq, hl⟩
      · next hne =>
        refine List.pairwise_cons.mpr ⟨fun q hq => ?_, ih hl⟩
        rcases mem_insertEntry hq with rfl | hq
        · exact lt_of_le_of_ne (not_lt.mp hle) (Ne.symm hne)
        · exact hp q hq

/-- `d[a] = b`. -/
def insert (d : SortedMap κ α) (a : κ) (b : α) : SortedMap κ α :=
  ⟨insertEntry a b d.entries, increase_insertEntry a b d.increase⟩

/-- A key beyond all others goes to the end. -/
theorem insertEntry_of_lt {a : κ} (b : α) {l : List (κ × α)} (h : ∀ p ∈ l, p.1 < a) :
    insertEntry a b l = l ++ [(a, b)] := by
  induction l with
  | nil => rfl
  | cons p l ih =>
    have hp := h p List.mem_cons_self
    rw [insertEntry, if_neg hp.asymm, if_neg hp.ne']
    exact congrArg _ (ih fun q hq => h q (List.mem_cons_of_mem _ hq))

/-- The value of a key. -/
def find (d : SortedMap κ α) (a : κ) : Option α := d.entries.lookup a

theorem lookup_cons_ite (p : κ × α) (l : List (κ × α)) (x : κ) :
    (p :: l).lookup x = if x = p.1 then some p.2 else l.lookup x := by
  rw [List.lookup_cons]
  by_cases h : x = p.1
  · rw [if_pos h, h, beq_self_eq_true]
  · rw [if_neg h, beq_false_of_ne h]

theorem lookup_insertEntry (a : κ) (b : α) (l : List (κ × α)) (x : κ) :
    (insertEntry a b l).lookup x = if x = a then some b else l.lookup x := by
  induction l with
  | nil => exact lookup_cons_ite (a, b) [] x
  | cons p l ih =>
    rw [insertEntry]
    split
    · exact lookup_cons_ite (a, b) (p :: l) x
    · split
      · next heq =>
        rw [lookup_cons_ite, lookup_cons_ite, ← heq]
        split <;> rfl
      · next hne =>
        rw [lookup_cons_ite, lookup_cons_ite, ih]
        by_cases h : x = p.1
        · rw [if_pos h, if_pos h, if_neg fun hxa => hne (hxa.symm.trans h)]
        · rw [if_neg h, if_neg h]

@[simp] theorem find_insert_self (d : SortedMap κ α) (a : κ) (b : α) :
    (d.insert a b).find a = some b := by
  rw [find, insert, lookup_insertEntry, if_pos rfl]

theorem find_insert_of_ne (d : SortedMap κ α) {a x : κ} (b : α) (h : x ≠ a) :
    (d.insert a b).find x = d.find x := by
  rw [find, insert, lookup_insertEntry, if_neg h, find]

/-- The same keys with other values. -/
def mapVal {β : Type} (d : SortedMap κ α) (f : κ → α → β) : SortedMap κ β :=
  ⟨d.entries.map fun p => (p.1, f p.1 p.2), by
    rw [KeysIncrease, List.pairwise_map]
    exact d.increase⟩

theorem lookup_map {β : Type} (f : κ → α → β) (a : κ) (l : List (κ × α)) :
    (l.map fun p => (p.1, f p.1 p.2)).lookup a = (l.lookup a).map (f a) := by
  induction l with
  | nil => rfl
  | cons p l ih =>
    rw [List.map_cons, lookup_cons_ite, lookup_cons_ite, ih]
    split
    · next h => rw [h, Option.map_some]
    · rfl

@[simp] theorem find_mapVal {β : Type} (d : SortedMap κ α) (f : κ → α → β) (a : κ) :
    (d.mapVal f).find a = (d.find a).map (f a) :=
  lookup_map f a d.entries

theorem lookup_of_lt {a : κ} {l : List (κ × α)} (h : ∀ p ∈ l, a < p.1) : l.lookup a = none := by
  refine List.lookup_eq_none_iff.mpr fun p hp => ?_
  exact bne_iff_ne.mpr (h p hp).ne

section Count

variable [DecidableEq α]

/-- How many keys have this value. -/
def count (d : SortedMap κ α) (v : α) : ℕ := d.entries.countP fun p => p.2 = v

theorem countP_insertEntry (a : κ) (b v : α) {l : List (κ × α)} (h : KeysIncrease l) :
    (insertEntry a b l).countP (fun p => p.2 = v) + (if l.lookup a = some v then 1 else 0)
      = l.countP (fun p => p.2 = v) + (if b = v then 1 else 0) := by
  induction l with
  | nil => simp [insertEntry]
  | cons p l ih =>
    obtain ⟨hp, hl⟩ := List.pairwise_cons.mp h
    rw [insertEntry]
    split
    · next hlt =>
      have hnone : (p :: l).lookup a = none := by
        refine lookup_of_lt fun q hq => ?_
        rcases List.mem_cons.mp hq with rfl | hq
        · exact hlt
        · exact hlt.trans (hp q hq)
      rw [hnone, List.countP_cons]
      simp
    · split
      · next heq =>
        rw [List.lookup_cons, heq, List.countP_cons, List.countP_cons]
        simp
        omega
      · next hne =>
        have hrest := ih hl
        rw [List.lookup_cons, beq_false_of_ne hne, List.countP_cons, List.countP_cons]
        simp only
        omega

/-- A key that gets a new value gives up the one it had. -/
theorem count_insert (d : SortedMap κ α) (a : κ) (b v : α) :
    (d.insert a b).count v + (if d.find a = some v then 1 else 0)
      = d.count v + (if b = v then 1 else 0) :=
  countP_insertEntry a b v d.increase

/-- The value of a key is the value of some key. -/
theorem count_pos {d : SortedMap κ α} {a : κ} {v : α} (h : d.find a = some v) :
    0 < d.count v := by
  obtain ⟨l₁, l₂, hentries, -⟩ := List.lookup_eq_some_iff.mp h
  refine List.countP_pos_iff.mpr ⟨(a, v), ?_, decide_eq_true rfl⟩
  rw [hentries]
  exact List.mem_append_right _ List.mem_cons_self

end Count

/-- Maps are compared entry by entry, and entries by key and value. -/
instance [LinearOrder α] : LinearOrder (SortedMap κ α) :=
  LinearOrder.lift' (fun d => (d.entries.map toLex : List (κ ×ₗ α)))
    fun _ _ h => SortedMap.ext (List.map_injective_iff.mpr toLex.injective h)

end SortedMap
