/-
What the acceptor's log says: reading back the lines that `loginstance`, `logprop`
and `logaccept` wrote.

A log written by this program is the text of a list of records. `logread` of that
text is the fold of what one record does to the members, from whatever members it
starts: this is the one fact about the text format that everything above uses.
-/
import Yfs.PaxosAcceptor

set_option autoImplicit false

namespace Yfs.PaxosLog

open Text Yfs.PaxosAcceptor

/-! ## Records -/

inductive Record where
  | done (i : ℕ) (v : Str)
  | propseen (n : prop_t)
  | accepted (n : prop_t) (v : Str)
  deriving DecidableEq, Repr

namespace Record

/-- The line of a record. -/
def text : Record → Str
  | done i v => doneWord ++ ' ' :: (dec i ++ ' ' :: (v ++ ['\n']))
  | propseen n => propseenWord ++ ' ' :: (dec n.n ++ ' ' :: (n.m ++ ['\n']))
  | accepted n v => acceptedWord ++ ' ' :: (dec n.n ++ ' ' :: (n.m ++ ' ' :: (v ++ ['\n'])))

/-- A proposal number that can be read back. -/
def NumOk (n : prop_t) : Prop := n.n < 2 ^ 32 ∧ IsWord n.m

/-- A value that can be read back. -/
def ValueOk (v : Str) : Prop := '\n' ∉ v

instance (n : prop_t) : Decidable (NumOk n) :=
  inferInstanceAs (Decidable (n.n < 2 ^ 32 ∧ IsWord n.m))

instance (v : Str) : Decidable (ValueOk v) := inferInstanceAs (Decidable ('\n' ∉ v))

/-- A record that can be read back. -/
def Wf : Record → Prop
  | done i v => i < 2 ^ 32 ∧ ValueOk v
  | propseen n => NumOk n
  | accepted n v => NumOk n ∧ ValueOk v

/-- What reading a record does to the members. -/
def apply (a : acceptor) : Record → acceptor
  | done i v => { a with
      values := Function.update a.values i (some v)
      instance_h := i
      v_a := []
      n_h := { a.n_h with n := 0 }
      n_a := { a.n_a with n := 0 } }
  | propseen n => { a with n_h := n }
  | accepted n v => { a with n_a := n, v_a := v }

end Record

/-- The text of a log. -/
def encode (recs : List Record) : Str := recs.flatMap Record.text

/-- The members after a log, from `a`. -/
def replay (a : acceptor) (recs : List Record) : acceptor := recs.foldl Record.apply a

@[simp] theorem encode_nil : encode [] = [] := rfl

theorem encode_append (r s : List Record) : encode (r ++ s) = encode r ++ encode s :=
  List.flatMap_append

theorem encode_cons (r : Record) (s : List Record) : encode (r :: s) = r.text ++ encode s :=
  List.flatMap_cons

theorem replay_append (a : acceptor) (r s : List Record) :
    replay a (r ++ s) = replay (replay a r) s :=
  List.foldl_append

/-! ## Reading one record -/

theorem isWord_doneWord : IsWord doneWord := by decide
theorem isWord_propseenWord : IsWord propseenWord := by decide
theorem isWord_acceptedWord : IsWord acceptedWord := by decide

theorem blank_space : ∀ c ∈ [' '], isSpace c = true := by simp [isSpace]

/-- A blank or a newline ends a word and a number. -/
theorem stops_cons {p : Char → Bool} {c : Char} {s : Str} (h : p c = false) : Stops p (c :: s) := by
  rintro c' ⟨rfl⟩
  exact h

theorem get_cons (c : Char) (s : Str) : (Istream.open (c :: s)).get = Istream.open s := rfl

/-- A stream that is not at its end after an extraction. -/
theorem open_cons (c : Char) (s : Str) :
    (⟨c :: s, (c :: s).isEmpty, false⟩ : Istream) = Istream.open (c :: s) := rfl

theorem read_done_text {i : ℕ} {v : Str} (hi : i < 2 ^ 32) (hv : '\n' ∉ v) (old : ℕ)
    (a : acceptor) (more : Str) :
    read_done (Istream.open (' ' :: (dec i ++ ' ' :: (v ++ '\n' :: more)))) old a
      = (Istream.open more, i, Record.apply a (.done i v)) := by
  have hnum := unsigned_read (r := ' ' :: (v ++ '\n' :: more)) old blank_space hi
    (stops_cons (by decide))
  rw [List.singleton_append, open_cons] at hnum
  simp only [read_done, hnum, get_cons, getline_read [] hv]
  rfl

theorem read_number_text {n : prop_t} (hn : Record.NumOk n) (old : prop_t) (c : Char)
    (hc : isSpace c = true) (more : Str) :
    (Istream.open (' ' :: (dec n.n ++ ' ' :: (n.m ++ c :: more)))).unsigned 32 old.n
        = (n.n, Istream.open (' ' :: (n.m ++ c :: more)))
      ∧ (Istream.open (' ' :: (n.m ++ c :: more))).word old.m
          = (n.m, Istream.open (c :: more)) := by
  have hnum := unsigned_read (r := ' ' :: (n.m ++ c :: more)) old.n blank_space hn.1
    (stops_cons (by decide))
  have hname := word_read (r := c :: more) old.m blank_space hn.2 (stops_cons (by simp [hc]))
  rw [List.singleton_append, open_cons] at hnum
  rw [List.singleton_append, open_cons] at hname
  exact ⟨hnum, hname⟩

theorem read_propseen_text {n : prop_t} (hn : Record.NumOk n) (a : acceptor) (more : Str) :
    read_propseen (Istream.open (' ' :: (dec n.n ++ ' ' :: (n.m ++ '\n' :: more)))) a
      = (Istream.open ('\n' :: more), Record.apply a (.propseen n)) := by
  obtain ⟨hnum, hname⟩ := read_number_text hn a.n_h '\n' (by decide) more
  simp only [read_propseen, hnum, hname]
  rfl

theorem read_accepted_text {n : prop_t} {v : Str} (hn : Record.NumOk n) (hv : '\n' ∉ v)
    (a : acceptor) (more : Str) :
    read_accepted (Istream.open (' ' :: (dec n.n ++ ' ' :: (n.m ++ ' ' :: (v ++ '\n' :: more))))) a
      = (Istream.open more, Record.apply a (.accepted n v)) := by
  obtain ⟨hnum, hname⟩ := read_number_text hn a.n_a ' ' (by decide) (v ++ '\n' :: more)
  simp only [read_accepted, hnum, hname, get_cons, getline_read [] hv]
  rfl

/-! ## Reading the log -/

/-- At the end of the text the loop stops. -/
theorem logread_loop_end (fuel : ℕ) {b : Str} (hb : ∀ c ∈ b, isSpace c = true) (type : Str)
    (i : ℕ) (a : acceptor) :
    logread_loop (fuel + 1) (Istream.open b) type i a = some a := by
  have hdrop : b.dropWhile isSpace = [] := List.dropWhile_eq_nil_iff.mpr hb
  simp [logread_loop, Istream.word, Istream.open, Istream.good, hdrop]

/-- The word a record begins with. -/
theorem word_text {b w rest : Str} (hb : ∀ c ∈ b, isSpace c = true) (hw : IsWord w) (old : Str) :
    (Istream.open (b ++ (w ++ ' ' :: rest))).word old = (w, Istream.open (' ' :: rest)) := by
  rw [word_read old hb hw (stops_cons (by decide)), open_cons]

/-- Blanks before the next record do not matter: a `propseen` record leaves its
newline to the next round. -/
theorem logread_loop_encode {recs : List Record} (hrecs : ∀ r ∈ recs, r.Wf) {fuel : ℕ}
    (hfuel : recs.length < fuel) {b : Str} (hb : ∀ c ∈ b, isSpace c = true) (type : Str) (i : ℕ)
    (a : acceptor) :
    logread_loop fuel (Istream.open (b ++ encode recs)) type i a = some (replay a recs) := by
  -- what the loop has left is always some blanks and whole records
  induction recs generalizing fuel b type i a with
  | nil =>
    obtain ⟨fuel, rfl⟩ : ∃ k, fuel = k + 1 := ⟨fuel - 1, by simp at hfuel; omega⟩
    rw [encode_nil, List.append_nil]
    exact logread_loop_end fuel hb type i a
  | cons r recs ih =>
    obtain ⟨fuel, rfl⟩ : ∃ k, fuel = k + 1 := ⟨fuel - 1, by simp at hfuel; omega⟩
    have hlen : recs.length < fuel := by simpa using hfuel
    have hwf := hrecs r List.mem_cons_self
    have hrest : ∀ r ∈ recs, r.Wf := fun r hr => hrecs r (List.mem_cons_of_mem _ hr)
    have hnl : ∀ c ∈ ['\n'], isSpace c = true := by simp [isSpace]
    have hno : ∀ c ∈ ([] : Str), isSpace c = true := by simp
    rw [encode_cons]
    cases r with
    | done i' v =>
      have hread := read_done_text hwf.1 hwf.2 i a (encode recs)
      simp only [Record.text, List.append_assoc, List.cons_append, List.nil_append]
      rw [logread_loop, word_text hb isWord_doneWord]
      simp only [Istream.open, Bool.false_eq_true, if_false, if_true]
      simp only [Istream.open] at hread
      rw [hread]
      exact ih hrest hlen hno _ _ _
    | propseen n =>
      have hread := read_propseen_text hwf a (encode recs)
      simp only [Record.text, List.append_assoc, List.cons_append, List.nil_append]
      rw [logread_loop, word_text hb isWord_propseenWord]
      have hne : propseenWord ≠ doneWord := by decide
      simp only [Istream.open, Bool.false_eq_true, if_false, if_true, hne]
      simp only [Istream.open] at hread
      rw [hread]
      -- the newline after the name is still in the stream
      exact ih hrest hlen hnl _ _ _
    | accepted n v =>
      have hread := read_accepted_text hwf.1 hwf.2 a (encode recs)
      simp only [Record.text, List.append_assoc, List.cons_append, List.nil_append]
      rw [logread_loop, word_text hb isWord_acceptedWord]
      have hne : acceptedWord ≠ doneWord := by decide
      have hne' : acceptedWord ≠ propseenWord := by decide
      simp only [Istream.open, Bool.false_eq_true, if_false, if_true, hne, hne']
      simp only [Istream.open] at hread
      rw [hread]
      exact ih hrest hlen hno _ _ _

theorem length_le_encode (recs : List Record) : recs.length ≤ (encode recs).length := by
  induction recs with
  | nil => simp
  | cons r recs ih =>
    have hr : 1 ≤ r.text.length := by
      cases r <;> simp [Record.text, doneWord, propseenWord, acceptedWord]
    rw [encode_cons, List.length_append, List.length_cons]
    omega

/-- **`logread` reads back what was written.** -/
theorem logread_encode {recs : List Record} (hrecs : ∀ r ∈ recs, r.Wf) {a : acceptor}
    (ha : a.log = encode recs) : logread a = some (replay a recs) := by
  have hlen : recs.length < a.log.length + 1 := by
    rw [ha]
    exact Nat.lt_succ_of_le (length_le_encode recs)
  have h := logread_loop_encode (b := []) hrecs hlen (by simp) [] 0 a
  rw [List.nil_append, ← ha] at h
  exact h

/-! ## `dump` -/

/-- The loop of `dump` copies a text of whole lines. -/
theorem dump_loop_lines {s : Str} (hs : s = [] ∨ ∃ t, s = t ++ ['\n']) {fuel : ℕ}
    (hfuel : s.length < fuel) (v res : Str) :
    dump_loop fuel (Istream.open s) v res = res ++ s := by
  induction fuel generalizing s v res with
  | zero => omega
  | succ fuel ih =>
    rcases hs with rfl | ⟨t, rfl⟩
    · simp [dump_loop, Istream.getline, Istream.open, Istream.good]
    · -- the first line, and what follows it
      obtain ⟨line, rest, heq, hline⟩ :=
        List.eq_append_cons_of_mem (show '\n' ∈ t ++ ['\n'] by simp)
      have hrest : rest = [] ∨ ∃ t', rest = t' ++ ['\n'] := by
        rcases List.eq_nil_or_concat rest with h | ⟨t', c, rfl⟩
        · exact .inl h
        · have hlast : c = '\n' := by
            simpa [List.getLast?_cons] using (congrArg List.getLast? heq).symm
          exact .inr ⟨t', by rw [hlast, List.concat_eq_append]⟩
      rw [heq] at hfuel ⊢
      simp only [List.length_append, List.length_cons] at hfuel
      rw [dump_loop, getline_read v hline]
      simp only [Bool.false_eq_true, if_false]
      have hread := ih hrest (by omega) line (res ++ (line ++ ['\n']))
      simp only [Istream.open] at hread
      rw [hread]
      simp

theorem text_lines (r : Record) : ∃ t, r.text = t ++ ['\n'] := by
  cases r with
  | done i v => exact ⟨doneWord ++ ' ' :: (dec i ++ ' ' :: v), by simp [Record.text]⟩
  | propseen n => exact ⟨propseenWord ++ ' ' :: (dec n.n ++ ' ' :: n.m), by simp [Record.text]⟩
  | accepted n v =>
    exact ⟨acceptedWord ++ ' ' :: (dec n.n ++ ' ' :: (n.m ++ ' ' :: v)), by simp [Record.text]⟩

/-- `dump` returns the log as it was written. -/
theorem dump_encode {recs : List Record} {a : acceptor} (ha : a.log = encode recs) :
    dump a = a.log := by
  have hlines : a.log = [] ∨ ∃ t, a.log = t ++ ['\n'] := by
    rw [ha]
    rcases List.eq_nil_or_concat recs with rfl | ⟨recs, r, rfl⟩
    · exact .inl rfl
    · obtain ⟨t, ht⟩ := text_lines r
      exact .inr ⟨encode recs ++ t, by simp [encode_append, encode_cons, ht]⟩
  have h := dump_loop_lines hlines (Nat.lt_succ_self _) [] []
  rw [List.nil_append] at h
  exact h

end Yfs.PaxosLog
