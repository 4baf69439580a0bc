/-
Views of the config module (`config.cc`): lists of members, written as text.

A view is agreed on as a string, the members each followed by a blank, and read back
with `>>` every time it is looked at. The first view is the name of the first node
alone, without the blank. A name that is a word survives the round trip, so for such
names the text of a view stands for its list.

The next view is made from the current one by appending a member or by dropping one.
-/
import Yfs.PaxosProposer
import Mathlib.Data.List.Nodup

set_option autoImplicit false

namespace Yfs.Views

open Text Yfs.PaxosAcceptor Yfs.PaxosProposer

/-! ## Text of a view -/

/-- The loop of `members`. -/
def members_loop : ℕ → Istream → Str → List Str
  | 0, _, _ => []
  | fuel + 1, ist, m =>
    let r := ist.word m
    if r.2.fail then [] else r.1 :: members_loop fuel r.2 r.1

/-- `members`: every round reads at least one character. -/
def members (value : Str) : List Str := members_loop (value.length + 1) (Istream.open value) []

def value : List Str → Str
  | [] => []
  | m :: ms => m ++ ' ' :: value ms

/-- `get_view_wo`. -/
def get_view_wo (acc : acceptor) (vid : ℕ) : List Str := members (acc.value vid)

theorem members_loop_value {ms : List Str} (hms : ∀ m ∈ ms, IsWord m) {b old : Str}
    (hb : ∀ c ∈ b, isSpace c = true) {fuel : ℕ} (hfuel : ms.length < fuel) :
    members_loop fuel (Istream.open (b ++ value ms)) old = ms := by
  induction ms generalizing b old fuel with
  | nil =>
    obtain ⟨fuel, rfl⟩ : ∃ k, fuel = k + 1 := ⟨fuel - 1, by simp at hfuel; omega⟩
    have hskip : (b ++ value []).dropWhile isSpace = [] := by
      rw [value, List.append_nil, List.dropWhile_eq_nil_iff]
      exact hb
    simp [members_loop, Istream.word, Istream.open, Istream.good, hskip]
  | cons m ms ih =>
    obtain ⟨fuel, rfl⟩ : ∃ k, fuel = k + 1 := ⟨fuel - 1, by simp at hfuel; omega⟩
    -- the blank after a name is what stands before the next one
    have hstop : Stops (!isSpace ·) (' ' :: value ms) := by
      rintro c ⟨rfl⟩
      rfl
    have hread := word_read (r := ' ' :: value ms) old hb (hms m List.mem_cons_self) hstop
    have hrest : members_loop fuel (Istream.open ([' '] ++ value ms)) m = ms :=
      ih (fun m' hm' => hms m' (List.mem_cons_of_mem _ hm')) (by simp [isSpace])
        (by simpa using hfuel)
    rw [members_loop, value, hread]
    exact congrArg (m :: ·) hrest

theorem length_le_value (ms : List Str) : ms.length ≤ (value ms).length := by
  induction ms with
  | nil => exact le_rfl
  | cons m ms ih =>
    simp only [value, List.length_cons, List.length_append]
    omega

/-- **A view survives the round trip through its text.** -/
theorem members_value {ms : List Str} (hms : ∀ m ∈ ms, IsWord m) : members (value ms) = ms :=
  members_loop_value hms (b := []) nofun (Nat.lt_succ_of_le (length_le_value ms))

/-- The text of the first view, which has no blank. -/
theorem members_singleton {m : Str} (hm : IsWord m) : members m = [m] := by
  have hread := word_read (b := []) (r := []) [] nofun hm nofun
  simp only [List.nil_append, List.append_nil, List.isEmpty_nil] at hread
  rw [members, members_loop, hread]
  obtain ⟨c, m, rfl⟩ := List.exists_cons_of_ne_nil hm.1
  simp [members_loop, Istream.word, Istream.good, Istream.failed]

@[simp] theorem members_nil : members [] = [] := rfl

/-! ## The next view -/

/-- The view `config::add` proposes. -/
def withMember (mems : List Str) (new_m : Str) : List Str := mems ++ [new_m]

/-- The view `config::remove_wo` proposes. -/
def withoutMember (mems : List Str) (m : Str) : List Str := mems.filter (· ≠ m)

/-- A view and the one after it: a new member at the end, or one member less. -/
inductive NextView (v : List Str) : List Str → Prop
  | added (m : Str) : m ∉ v → NextView v (v ++ [m])
  | removed (m : Str) : m ∈ v → v.erase m ≠ [] → NextView v (v.erase m)

theorem withoutMember_eq_erase {mems : List Str} (h : mems.Nodup) (m : Str) :
    withoutMember mems m = mems.erase m := by
  rw [withoutMember, h.erase_eq_filter]
  refine List.filter_congr fun x _ => ?_
  by_cases hx : x = m <;> simp [hx]

theorem nextView_withMember {v : List Str} {m : Str} (hm : m ∉ v) : NextView v (withMember v m) :=
  .added m hm

/-- Dropping another member leaves `me` in the view. -/
theorem nextView_withoutMember {v : List Str} (hv : v.Nodup) {m me : Str} (hm : m ∈ v)
    (hme : me ∈ v) (hne : m ≠ me) : NextView v (withoutMember v m) := by
  rw [withoutMember_eq_erase hv]
  refine .removed m hm ?_
  exact List.ne_nil_of_mem ((List.mem_erase_of_ne hne.symm).mpr hme)

theorem NextView.ne_nil {v w : List Str} (h : NextView v w) : w ≠ [] := by
  cases h with
  | added m hm => exact List.append_ne_nil_of_right_ne_nil v (List.cons_ne_nil m [])
  | removed m hm hne => exact hne

/-- Some member of a view stays in the next. -/
theorem NextView.exists_stays {v w : List Str} (h : NextView v w) (hv : v ≠ []) :
    ∃ x ∈ v, x ∈ w := by
  cases h with
  | added m hm =>
    obtain ⟨x, hx⟩ := List.exists_mem_of_ne_nil v hv
    exact ⟨x, hx, List.mem_append_left _ hx⟩
  | removed m hm hne =>
    obtain ⟨x, hx⟩ := List.exists_mem_of_ne_nil _ hne
    exact ⟨x, List.mem_of_mem_erase hx, hx⟩

theorem NextView.nodup {v w : List Str} (h : NextView v w) (hv : v.Nodup) : w.Nodup := by
  cases h with
  | added m hm =>
    rw [List.nodup_append']
    exact ⟨hv, List.nodup_singleton m, by simpa using hm⟩
  | removed m hm hne => exact hv.erase m

end Yfs.Views
