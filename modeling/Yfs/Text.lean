/-
Text as C++ programs read and write it: formatted input from a stream, one
extraction at a time, and decimal output.

A stream is the text that is still to be read and its two error flags. Every
extraction begins with the same guard (the sentry): a stream that is not good stays
as it is, fails, and leaves the target variable alone. The targets' old values are
therefore arguments. White space is that of the C locale.

The lemmas say what each extraction reads from a text that begins with what the
corresponding output operation wrote.
-/
import Mathlib.Algebra.Group.Nat.Defs
import Mathlib.Data.List.TakeWhile
import Mathlib.Data.Nat.Notation

set_option autoImplicit false

namespace Text

abbrev Str := List Char

/-- `isspace` in the C locale. -/
def isSpace (c : Char) : Bool :=
  c == ' ' || c == '\t' || c == '\n' || c == '\x0b' || c == '\x0c' || c == '\r'

/-- An input stream. -/
structure Istream where
  rest : Str
  eof : Bool
  fail : Bool
  deriving DecidableEq, Repr

/-- A stream just opened on a text. -/
def Istream.open (s : Str) : Istream := ⟨s, false, false⟩

def Istream.good (st : Istream) : Bool := !st.eof && !st.fail

/-- The sentry of a stream that is not good. -/
def Istream.failed (st : Istream) : Istream := { st with fail := true }

/-- Output of an unsigned number. -/
def dec (n : ℕ) : Str := Nat.toDigits 10 n

/-! ## Extractions -/

/-- `st >> str`. -/
def Istream.word (st : Istream) (old : Str) : Str × Istream :=
  if st.good then
    let r := st.rest.dropWhile isSpace
    let tail := r.dropWhile (!isSpace ·)
    -- nothing but white space is left: the target keeps its value
    if r.isEmpty then (old, ⟨[], true, true⟩)
    else (r.takeWhile (!isSpace ·), ⟨tail, tail.isEmpty, false⟩)
  else (old, st.failed)

/-- An optional sign: is the number negative, and what follows. -/
def sign : Str → Bool × Str
  | '-' :: r => (true, r)
  | '+' :: r => (false, r)
  | r => (false, r)

/-- `st >> n` for an unsigned `n` of `w` bits. A negative number wraps, one that does
not fit is the largest one and fails, and one without digits is zero and fails. -/
def Istream.unsigned (w : ℕ) (st : Istream) (old : ℕ) : ℕ × Istream :=
  if st.good then
    let r := st.rest.dropWhile isSpace
    let digits := (sign r).2.takeWhile Char.isDigit
    let tail := (sign r).2.dropWhile Char.isDigit
    let n := Nat.ofDigitChars 10 digits 0
    if r.isEmpty then (old, ⟨[], true, true⟩)
    else if digits.isEmpty then (0, ⟨tail, tail.isEmpty, true⟩)
    else if n < 2 ^ w then
      -- a minus sign negates within the unsigned type
      (if (sign r).1 then (2 ^ w - n) % 2 ^ w else n, ⟨tail, tail.isEmpty, false⟩)
    else (2 ^ w - 1, ⟨tail, tail.isEmpty, true⟩)
  else (old, st.failed)

/-- `st.get()`, the character dropped. -/
def Istream.get (st : Istream) : Istream :=
  if st.good then
    match st.rest with
    | [] => ⟨[], true, true⟩
    | _ :: r => ⟨r, false, false⟩
  else st.failed

/-- `getline(st, str)`. -/
def Istream.getline (st : Istream) (old : Str) : Str × Istream :=
  if st.good then
    let line := st.rest.takeWhile (· != '\n')
    match st.rest.dropWhile (· != '\n') with
    -- no newline: the line ends with the text, and an empty one fails
    | [] => (line, ⟨[], true, line.isEmpty⟩)
    | _ :: r => (line, ⟨r, false, false⟩)
  else (old, st.failed)

/-! ## Words and numbers -/

/-- A word: what `>>` reads back as it was written. -/
def IsWord (s : Str) : Prop := s ≠ [] ∧ ∀ c ∈ s, isSpace c = false

/-- The text stops a word: it is at its end or goes on with white space. -/
def Stops (p : Char → Bool) (s : Str) : Prop := ∀ c ∈ s.head?, p c = false

instance (s : Str) : Decidable (IsWord s) :=
  -- over the list: characters are also a finite type, which is no way to decide this
  have : Decidable (∀ c ∈ s, isSpace c = false) := List.decidableBAll _ s
  inferInstanceAs (Decidable (s ≠ [] ∧ ∀ c ∈ s, isSpace c = false))

theorem takeWhile_append_stop {p : Char → Bool} {s r : Str} (hs : ∀ c ∈ s, p c = true)
    (hr : Stops p r) : (s ++ r).takeWhile p = s ∧ (s ++ r).dropWhile p = r := by
  rw [List.takeWhile_append_of_pos hs, List.dropWhile_append_of_pos hs]
  cases r with
  | nil => simp
  | cons c r =>
    have hc : p c = false := hr c rfl
    simp [hc]

theorem isDigit_not_space {c : Char} (h : c.isDigit = true) : isSpace c = false := by
  simp only [isSpace, Bool.or_eq_false_iff, beq_eq_false_iff_ne]
  refine ⟨⟨⟨⟨⟨?_, ?_⟩, ?_⟩, ?_⟩, ?_⟩, ?_⟩ <;> rintro rfl <;> revert h <;> decide

theorem isDigit_of_mem_dec {n : ℕ} {c : Char} (h : c ∈ dec n) : c.isDigit = true :=
  Nat.isDigit_of_mem_toDigits (by decide) (by decide) h

theorem dec_ne_nil (n : ℕ) : dec n ≠ [] := Nat.toDigits_ne_nil

theorem isWord_dec (n : ℕ) : IsWord (dec n) :=
  ⟨dec_ne_nil n, fun _ hc => isDigit_not_space (isDigit_of_mem_dec hc)⟩

theorem sign_of_digit {c : Char} {s : Str} (h : c.isDigit = true) :
    sign (c :: s) = (false, c :: s) := by
  unfold sign
  split
  · next heq =>
    obtain ⟨rfl, -⟩ := List.cons.inj heq
    exact absurd h (by decide)
  · next heq =>
    obtain ⟨rfl, -⟩ := List.cons.inj heq
    exact absurd h (by decide)
  · rfl

/-- White space before a word is skipped. -/
theorem skip_blanks {b s r : Str} (hb : ∀ c ∈ b, isSpace c = true) (hs : IsWord s) :
    (b ++ (s ++ r)).dropWhile isSpace = s ++ r := by
  rw [List.dropWhile_append_of_pos hb]
  obtain ⟨c, s, rfl⟩ := List.exists_cons_of_ne_nil hs.1
  have hc : isSpace c = false := hs.2 c List.mem_cons_self
  rw [List.cons_append, List.dropWhile_cons, hc]
  rfl

/-- `>>` reads back a word that was written, with any blanks before it. -/
theorem word_read {b s r : Str} (old : Str) (hb : ∀ c ∈ b, isSpace c = true) (hs : IsWord s)
    (hr : Stops (!isSpace ·) r) :
    (Istream.open (b ++ (s ++ r))).word old = (s, ⟨r, r.isEmpty, false⟩) := by
  have hskip := skip_blanks (r := r) hb hs
  have htake := takeWhile_append_stop (p := (!isSpace ·)) (s := s) (r := r)
    (fun c hc => by simp [hs.2 c hc]) hr
  have hne : (s ++ r).isEmpty = false := by simp [hs.1]
  -- the stream is good, so the sentry lets the extraction through
  simp only [Istream.word, Istream.open, Istream.good, Bool.not_false, Bool.and_self, if_true,
    hskip, hne, htake.1, htake.2, Bool.false_eq_true, if_false]

/-- `>>` reads back a number that was written, with any blanks before it. -/
theorem unsigned_read {b r : Str} {w n : ℕ} (old : ℕ) (hb : ∀ c ∈ b, isSpace c = true)
    (hn : n < 2 ^ w) (hr : Stops Char.isDigit r) :
    (Istream.open (b ++ (dec n ++ r))).unsigned w old = (n, ⟨r, r.isEmpty, false⟩) := by
  have hskip := skip_blanks (r := r) hb (isWord_dec n)
  have htake := takeWhile_append_stop (p := Char.isDigit) (r := r)
    (fun c hc => isDigit_of_mem_dec (n := n) hc) hr
  have hsign : sign (dec n ++ r) = (false, dec n ++ r) := by
    obtain ⟨c, s, hcs⟩ := List.exists_cons_of_ne_nil (dec_ne_nil n)
    have hc : c.isDigit = true := isDigit_of_mem_dec (hcs ▸ List.mem_cons_self)
    rw [hcs, List.cons_append]
    exact sign_of_digit hc
  have hval : Nat.ofDigitChars 10 (dec n) 0 = n := Nat.ofDigitChars_ten_toDigits
  have hdigits : (dec n).isEmpty = false := by simp [dec_ne_nil]
  have hne : (dec n ++ r).isEmpty = false := by simp [dec_ne_nil]
  simp only [Istream.unsigned, Istream.open, Istream.good, Bool.not_false, Bool.and_self, if_true,
    hskip, hne, hsign, htake.1, htake.2, hval, hdigits, hn, Bool.false_eq_true, if_false]

/-- `getline` reads back a line that was written. -/
theorem getline_read {s r : Str} (old : Str) (hs : '\n' ∉ s) :
    (Istream.open (s ++ '\n' :: r)).getline old = (s, ⟨r, false, false⟩) := by
  have htake := takeWhile_append_stop (p := (· != '\n')) (s := s) (r := '\n' :: r)
    (fun c hc => bne_iff_ne.mpr fun h => hs (h ▸ hc)) (by rintro c ⟨rfl⟩; rfl)
  simp only [Istream.getline, Istream.open, Istream.good, Bool.not_false, Bool.and_self, if_true,
    htake.1, htake.2]

end Text
