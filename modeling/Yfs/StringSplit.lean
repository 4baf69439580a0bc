/-
`Split` (`split.h`): cutting a string at a delimiter.

The loop's position `start` is the text that is left. `string::find` and
`string::find_first_of` return a position in that text, `none` is `npos`. Each round
with a match drops at least one character, so a round more than there are characters
is enough.

`Split_from` is the same loop at the positions of the whole string, where `substr` throws
beyond the end. It comes to the same, and so the tokens joined with the delimiter are the
string again.
-/
import Yfs.Text

set_option autoImplicit false

namespace Yfs.StringSplit

open Text

/-- `string::find` of a whole string. -/
def find (m : Str) : Str → Option ℕ
  | [] => if m = [] then some 0 else none
  | c :: cs => if m.isPrefixOf (c :: cs) then some 0 else (find m cs).map (· + 1)

/-- `string::find_first_of`. -/
def find_first_of (m : Str) : Str → Option ℕ
  | [] => none
  | c :: cs => if c ∈ m then some 0 else (find_first_of m cs).map (· + 1)

/-- The search loop. -/
def Split_loop (pfind : Str → Option ℕ) (skip : ℕ) (removeEmpty : Bool) : ℕ → Str → List Str
  | 0, _ => []
  | fuel + 1, rest =>
    -- a null string always matches; pretend that no token was found
    let stop := if skip = 0 then none else pfind rest
    let token := match stop with
      | none => rest
      | some e => rest.take e
    let more := match stop with
      | none => []
      | some e => Split_loop pfind skip removeEmpty fuel (rest.drop (e + skip))
    if removeEmpty && token.isEmpty then more else token :: more

def Split (s m : Str) (removeEmpty fullMatch : Bool) : List Str :=
  if fullMatch then Split_loop (find m) m.length removeEmpty (s.length + 1) s
  else Split_loop (find_first_of m) 1 removeEmpty (s.length + 1) s

/-! ## Matches -/

variable {m s : Str}

/-- A match that is found is one, and there is none before it. -/
theorem find_eq_some {e : ℕ} (h : find m s = some e) :
    m <+: s.drop e ∧ e ≤ s.length ∧ ∀ k < e, ¬ m <+: s.drop k := by
  induction s generalizing e with
  | nil =>
    rw [find] at h
    split at h
    · next hm =>
      obtain rfl := Option.some.inj h
      exact ⟨by rw [hm]; exact List.nil_prefix, le_refl _, fun k hk => absurd hk (by omega)⟩
    · cases h
  | cons c cs ih =>
    rw [find] at h
    split at h
    · next hpre =>
      obtain rfl := Option.some.inj h
      exact ⟨List.isPrefixOf_iff_prefix.mp hpre, Nat.zero_le _,
        fun k hk => absurd hk (by omega)⟩
    · next hpre =>
      obtain ⟨e', he', rfl⟩ := Option.map_eq_some_iff.mp h
      obtain ⟨hmatch, hle, hfirst⟩ := ih he'
      refine ⟨hmatch, Nat.succ_le_succ hle, ?_⟩
      intro k hk
      cases k with
      | zero => exact fun hm => hpre (List.isPrefixOf_iff_prefix.mpr hm)
      | succ k => exact hfirst k (by omega)

theorem find_eq_none (h : find m s = none) : ¬ m <:+: s := by
  induction s with
  | nil =>
    rw [find] at h
    split at h
    · cases h
    · next hm => exact fun hin => hm (List.infix_nil.mp hin)
  | cons c cs ih =>
    rw [find] at h
    split at h
    · cases h
    · next hpre =>
      rw [List.infix_cons_iff, not_or]
      exact ⟨fun hm => hpre (List.isPrefixOf_iff_prefix.mpr hm),
        ih (Option.map_eq_none_iff.mp h)⟩

/-- A match lies in the string. -/
theorem find_fits {e : ℕ} (h : find m s = some e) : e + m.length ≤ s.length := by
  obtain ⟨hmatch, hle, -⟩ := find_eq_some h
  have hlen := hmatch.length_le
  rw [List.length_drop] at hlen
  omega

theorem find_first_of_fits {e : ℕ} (h : find_first_of m s = some e) : e + 1 ≤ s.length := by
  induction s generalizing e with
  | nil => cases h
  | cons c cs ih =>
    rw [find_first_of] at h
    split at h
    · obtain rfl := Option.some.inj h
      exact Nat.succ_le_succ (Nat.zero_le _)
    · obtain ⟨e', he', rfl⟩ := Option.map_eq_some_iff.mp h
      exact Nat.succ_le_succ (ih he')

/-- More rounds than characters change nothing: a round with a match leaves less text. -/
theorem Split_loop_fuel {pfind : Str → Option ℕ} {skip : ℕ}
    (hfits : ∀ t e, pfind t = some e → e + skip ≤ t.length) (removeEmpty : Bool)
    {fuel fuel' : ℕ} (hf : s.length < fuel) (hf' : s.length < fuel') :
    Split_loop pfind skip removeEmpty fuel s = Split_loop pfind skip removeEmpty fuel' s := by
  induction fuel generalizing fuel' s with
  | zero => omega
  | succ fuel ih =>
    obtain ⟨fuel', rfl⟩ : ∃ k, fuel' = k + 1 := ⟨fuel' - 1, by omega⟩
    rw [Split_loop, Split_loop]
    by_cases hskip : skip = 0
    · simp only [hskip, if_true]
    · simp only [hskip, if_false]
      rcases hfind : pfind s with _ | e
      · rfl
      · have hrest : (s.drop (e + skip)).length < s.length := by
          have hle := hfits s e hfind
          rw [List.length_drop]
          omega
        have hless : (s.drop (e + skip)).length < fuel := by omega
        have hless' : (s.drop (e + skip)).length < fuel' := by omega
        simp only [ih hless hless']

/-! ## One-character delimiters -/

/-- A character that is not the delimiter is passed over. -/
theorem find_singleton_cons {d c : Char} (h : d ≠ c) (s : Str) :
    find [d] (c :: s) = (find [d] s).map (· + 1) := by
  simp [find, List.isPrefixOf, h]

/-- A delimiter of one character is found at its first occurrence. -/
theorem find_singleton (d : Char) (r : Str) (hs : d ∉ s) :
    find [d] (s ++ d :: r) = some s.length := by
  induction s with
  | nil => simp [find, List.isPrefixOf]
  | cons c s ih =>
    rw [List.mem_cons, not_or] at hs
    rw [List.cons_append, find_singleton_cons hs.1, ih hs.2]
    rfl

theorem find_singleton_eq_none (d : Char) (hs : d ∉ s) : find [d] s = none := by
  induction s with
  | nil => simp [find]
  | cons c s ih =>
    rw [List.mem_cons, not_or] at hs
    rw [find_singleton_cons hs.1, ih hs.2]
    rfl

/-- Keep a token unless empty ones are removed. -/
def keep (removeEmpty : Bool) (token : Str) : List Str :=
  if removeEmpty && token.isEmpty then [] else [token]

theorem Split_loop_last (d : Char) (removeEmpty : Bool) (fuel : ℕ) (hs : d ∉ s) :
    Split_loop (find [d]) 1 removeEmpty (fuel + 1) s = keep removeEmpty s := by
  simp [Split_loop, find_singleton_eq_none d hs, keep]

theorem Split_loop_token (d : Char) (removeEmpty : Bool) (fuel : ℕ) (r : Str) (hs : d ∉ s) :
    Split_loop (find [d]) 1 removeEmpty (fuel + 1) (s ++ d :: r)
      = keep removeEmpty s ++ Split_loop (find [d]) 1 removeEmpty fuel r := by
  have hdrop : (s ++ d :: r).drop (s.length + 1) = r := by
    rw [List.drop_append, List.drop_of_length_le (by omega)]
    simp
  have htake : (s ++ d :: r).take s.length = s := by simp
  simp only [Split_loop, find_singleton d r hs, Nat.one_ne_zero, if_false, hdrop, htake, keep]
  split
  · rfl
  · rfl

/-- `Split` of a text without the delimiter. -/
theorem Split_last (d : Char) (removeEmpty : Bool) (hs : d ∉ s) :
    Split s [d] removeEmpty true = keep removeEmpty s := by
  simp only [Split, if_true, List.length_singleton]
  exact Split_loop_last d removeEmpty _ hs

/-- `Split` cuts off the token before the first delimiter. -/
theorem Split_token (d : Char) (removeEmpty : Bool) (r : Str) (hs : d ∉ s) :
    Split (s ++ d :: r) [d] removeEmpty true
      = keep removeEmpty s ++ Split r [d] removeEmpty true := by
  simp only [Split, if_true, List.length_singleton]
  rw [Split_loop_token d removeEmpty _ r hs]
  congr 1
  refine Split_loop_fuel (fun _ _ h => find_fits h) removeEmpty ?_ (by omega)
  simp only [List.length_append, List.length_cons]
  omega

/-! ## Delimiters of any length -/

/-- The text before the first match has no match in it. -/
theorem not_infix_take {e : ℕ} (hm : m ≠ []) (hfirst : ∀ k < e, ¬ m <+: s.drop k) :
    ¬ m <:+: s.take e := by
  rintro ⟨a, b, hab⟩
  have hlen : a.length + m.length + b.length ≤ e := by
    rw [← List.length_append, ← List.length_append, hab]
    exact List.length_take_le _ _
  have hpos := List.length_pos_iff.mpr hm
  refine hfirst a.length (by omega) ⟨b ++ s.drop e, ?_⟩
  have hs : a ++ (m ++ (b ++ s.drop e)) = s := by
    calc a ++ (m ++ (b ++ s.drop e)) = (a ++ m ++ b) ++ s.drop e := by
          simp only [List.append_assoc]
      _ = s := by rw [hab, List.take_append_drop]
  have hdrop : (a ++ (m ++ (b ++ s.drop e))).drop a.length = m ++ (b ++ s.drop e) := List.drop_left
  rw [hs] at hdrop
  exact hdrop.symm

theorem intercalate_cons {m t : Str} {l : List Str} (h : l ≠ []) :
    m.intercalate (t :: l) = t ++ (m ++ m.intercalate l) := by
  obtain ⟨u, l', rfl⟩ := List.exists_cons_of_ne_nil h
  rfl

/-- The tokens, joined with the delimiter, are the text, and no token has the delimiter in
it. -/
theorem Split_loop_join (hm : m ≠ []) {fuel : ℕ} (hf : s.length < fuel) :
    Split_loop (find m) m.length false fuel s ≠ []
      ∧ m.intercalate (Split_loop (find m) m.length false fuel s) = s
      ∧ ∀ t ∈ Split_loop (find m) m.length false fuel s, ¬ m <:+: t := by
  have hskip : m.length ≠ 0 := fun h => hm (List.length_eq_zero_iff.mp h)
  induction fuel generalizing s with
  | zero => omega
  | succ fuel ih =>
    rw [Split_loop]
    simp only [hskip, if_false, Bool.false_and, Bool.false_eq_true]
    rcases hfind : find m s with _ | e
    · refine ⟨List.cons_ne_nil _ _, ?_, ?_⟩
      · simp [List.intercalate]
      · intro t ht
        rw [List.mem_singleton.mp ht]
        exact find_eq_none hfind
    · obtain ⟨⟨r, hr⟩, hle, hfirst⟩ := find_eq_some hfind
      have hrest : s.drop (e + m.length) = r := by
        rw [← List.drop_drop, ← hr, List.drop_left]
      have hlen : r.length < fuel := by
        have hdrop := congrArg List.length hr
        rw [List.length_append, List.length_drop] at hdrop
        omega
      obtain ⟨hne, hjoin, htokens⟩ := ih hlen
      simp only [hrest]
      refine ⟨List.cons_ne_nil _ _, ?_, ?_⟩
      · rw [intercalate_cons hne, hjoin, hr, List.take_append_drop]
      · intro t ht
        rcases List.mem_cons.mp ht with rfl | ht
        · exact not_infix_take hm hfirst
        · exact htokens t ht

/-- To remove the empty tokens is to leave them out of the list. -/
theorem Split_loop_removeEmpty (pfind : Str → Option ℕ) (skip fuel : ℕ) (s : Str) :
    Split_loop pfind skip true fuel s
      = (Split_loop pfind skip false fuel s).filter fun t => !t.isEmpty := by
  induction fuel generalizing s with
  | zero => rfl
  | succ fuel ih =>
    rw [Split_loop, Split_loop]
    generalize (if skip = 0 then none else pfind s) = stop
    cases stop with
    | none => cases hs : s.isEmpty <;> simp [hs]
    | some e =>
      have hrest := ih (s.drop (e + skip))
      cases hs : (s.take e).isEmpty <;> simp [hs, hrest]

/-! ## Positions

The source has the whole string and a position in it. `substr` throws for a position beyond
the end. -/

/-- `(s.*pfind)(match, start)`. -/
def find_from (pfind : Str → Option ℕ) (s : Str) (start : ℕ) : Option ℕ :=
  if start ≤ s.length then (pfind (s.drop start)).map (start + ·) else none

/-- `s.substr(pos, n)`; no `n` is one that reaches the end, as `npos - pos` does. -/
def substr (s : Str) (pos : ℕ) (n : Option ℕ) : Option Str :=
  if pos ≤ s.length then
    some (match n with
      | none => s.drop pos
      | some n => (s.drop pos).take n)
  else none

/-- The search loop; `none`: an exception, or more rounds than `fuel`. -/
def Split_from (pfind : Str → Option ℕ) (skip : ℕ) (removeEmpty : Bool) (s : Str) :
    ℕ → ℕ → Option (List Str)
  | 0, _ => none
  | fuel + 1, start =>
    let stop := if skip = 0 then none else find_from pfind s start
    (substr s start (stop.map (· - start))).bind fun token =>
      let more := match stop with
        | none => some []
        | some e => Split_from pfind skip removeEmpty s fuel (e + skip)
      more.map fun result => if removeEmpty && token.isEmpty then result else token :: result

/-- `Split` in at most `fuel` rounds. -/
def Split_rounds (fuel : ℕ) (s m : Str) (removeEmpty fullMatch : Bool) : Option (List Str) :=
  if fullMatch then Split_from (find m) m.length removeEmpty s fuel 0
  else Split_from (find_first_of m) 1 removeEmpty s fuel 0

/-- When a match lies in the string, every position that the loop comes to does, and the loop
ends. -/
theorem Split_from_eq {pfind : Str → Option ℕ} {skip : ℕ}
    (hfits : ∀ t e, pfind t = some e → e + skip ≤ t.length) (removeEmpty : Bool)
    {fuel start : ℕ} (hstart : start ≤ s.length) (hf : s.length - start < fuel) :
    Split_from pfind skip removeEmpty s fuel start
      = some (Split_loop pfind skip removeEmpty fuel (s.drop start)) := by
  induction fuel generalizing start with
  | zero => omega
  | succ fuel ih =>
    rw [Split_from, Split_loop]
    have hfrom : find_from pfind s start = (pfind (s.drop start)).map (start + ·) := if_pos hstart
    have hsub : ∀ n, substr s start n = some (match n with
        | none => s.drop start
        | some n => (s.drop start).take n) := fun n => if_pos hstart
    by_cases hskip : skip = 0
    · simp only [hskip, if_true, Option.map_none, hsub, Option.bind_some, Option.map_some]
    · simp only [hskip, if_false, hfrom, hsub, Option.bind_some]
      rcases hfind : pfind (s.drop start) with _ | e
      · simp only [Option.map_none, Option.map_some]
      · -- the next position is still in the string, and nearer to its end
        have hnext := hfits _ e hfind
        rw [List.length_drop] at hnext
        have hin : start + e + skip ≤ s.length := by omega
        have hmore := ih hin (by omega)
        have hdrop : (s.drop start).drop (e + skip) = s.drop (start + e + skip) := by
          rw [List.drop_drop, Nat.add_assoc]
        simp only [Option.map_some, hmore, hdrop, Nat.add_sub_cancel_left]

/-- `Split` takes no more rounds than there are characters and one more, and every position
in it is one of the string. -/
theorem Split_rounds_eq {fuel : ℕ} (hf : s.length < fuel) (m : Str) (removeEmpty fullMatch : Bool) :
    Split_rounds fuel s m removeEmpty fullMatch = some (Split s m removeEmpty fullMatch) := by
  have hfirst : ∀ t e, find_first_of m t = some e → e + 1 ≤ t.length := fun _ _ h =>
    find_first_of_fits h
  have hwhole : ∀ t e, find m t = some e → e + m.length ≤ t.length := fun _ _ h => find_fits h
  unfold Split_rounds Split
  cases fullMatch with
  | false =>
    rw [if_neg Bool.false_ne_true, if_neg Bool.false_ne_true,
      Split_from_eq hfirst removeEmpty (Nat.zero_le _) hf, List.drop_zero,
      Split_loop_fuel hfirst removeEmpty hf (Nat.lt_succ_self _)]
  | true =>
    rw [if_pos rfl, if_pos rfl, Split_from_eq hwhole removeEmpty (Nat.zero_le _) hf,
      List.drop_zero, Split_loop_fuel hwhole removeEmpty hf (Nat.lt_succ_self _)]

/-- **Split is the inverse of join.** For a delimiter that is not empty the loop ends without
an exception, no token has the delimiter in it, and the tokens joined with it are the
string; with `removeEmpty` they are the same tokens without the empty ones. For an empty
delimiter the string is the one token. -/
theorem split_join (s d : Str) :
    (d ≠ [] → ∃ tokens,
      (∀ fuel, s.length < fuel → Split_rounds fuel s d false true = some tokens)
        ∧ (∀ t ∈ tokens, ¬ d <:+: t)
        ∧ d.intercalate tokens = s
        ∧ ∀ fuel, s.length < fuel →
          Split_rounds fuel s d true true = some (tokens.filter fun t => t ≠ []))
      ∧ ∀ fuel, 0 < fuel → Split_rounds fuel s [] false true = some [s] := by
  refine ⟨?_, ?_⟩
  · intro hd
    obtain ⟨-, hjoin, htokens⟩ := Split_loop_join hd (Nat.lt_succ_self s.length)
    refine ⟨Split s d false true, ?_, htokens, hjoin, ?_⟩
    · intro fuel hf
      exact Split_rounds_eq hf d false true
    · intro fuel hf
      rw [Split_rounds_eq hf d true true]
      have hremove := Split_loop_removeEmpty (find d) d.length (s.length + 1) s
      have hfilter : (fun t : Str => !t.isEmpty) = fun t => decide (t ≠ []) := by
        funext t
        cases t <;> rfl
      rw [hfilter] at hremove
      exact congrArg some hremove
  · intro fuel hf
    obtain ⟨fuel, rfl⟩ : ∃ k, fuel = k + 1 := ⟨fuel - 1, by omega⟩
    rfl

/-- A delimiter that overlaps itself, at both ends. -/
theorem split_join_overlap :
    ∃ tokens, Split_rounds 7 ['a', 'a', 'a', 'b', 'a', 'a'] ['a', 'a'] false true = some tokens
      ∧ (∀ t ∈ tokens, ¬ ['a', 'a'] <:+: t)
      ∧ ['a', 'a'].intercalate tokens = ['a', 'a', 'a', 'b', 'a', 'a']
      ∧ tokens = [[], ['a', 'b'], []] := by
  obtain ⟨tokens, hsplit, htokens, hjoin, -⟩ :=
    (split_join ['a', 'a', 'a', 'b', 'a', 'a'] ['a', 'a']).1 (by decide)
  have hrun := hsplit 7 (by decide)
  exact ⟨tokens, hrun, htokens, hjoin, (Option.some.inj hrun).symm⟩

end Yfs.StringSplit
