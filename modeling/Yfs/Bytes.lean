/-
Bytes in memory and words as bytes.

Memory is a function from addresses to bytes: what has not been written is whatever it
was, and an address that lies outside of a buffer is an address all the same. `slice`
reads a stretch of it and `write` overwrites one. The second half is the network byte
order of 16- and 32-bit words, most significant byte first; both directions are exact, so
a word is its bytes and any two or four bytes are a word.
-/
import Mathlib.Data.Nat.Bitwise
import Mathlib.Data.Int.Order.Basic
import Mathlib.Tactic.IntervalCases

set_option autoImplicit false

namespace Bytes

/-! ## Memory -/

section Memory

variable {α : Type*} {f g : ℤ → α} {i j : ℤ} {n m : ℕ} {bs cs : List α}

/-- The `n` bytes from address `i`. -/
def slice (f : ℤ → α) (i : ℤ) : ℕ → List α
  | 0 => []
  | n + 1 => f i :: slice f (i + 1) n

/-- Memory with `bs` at address `i`. -/
def write (f : ℤ → α) (i : ℤ) (bs : List α) : ℤ → α := fun j =>
  if i ≤ j then bs.getD (j - i).toNat (f j) else f j

theorem slice_succ (f : ℤ → α) (i : ℤ) (n : ℕ) : slice f i (n + 1) = f i :: slice f (i + 1) n :=
  rfl

@[simp] theorem slice_zero (f : ℤ → α) (i : ℤ) : slice f i 0 = [] := rfl

@[simp] theorem length_slice (f : ℤ → α) (i : ℤ) (n : ℕ) : (slice f i n).length = n := by
  induction n generalizing i with
  | zero => rfl
  | succ n ih => rw [slice_succ, List.length_cons, ih]

/-- A stretch in two parts. -/
theorem slice_add (f : ℤ → α) (i : ℤ) (m n : ℕ) :
    slice f i (m + n) = slice f i m ++ slice f (i + m) n := by
  induction m generalizing i with
  | zero => simp
  | succ m ih =>
    have hi : i + 1 + (m : ℤ) = i + ((m + 1 : ℕ) : ℤ) := by omega
    rw [Nat.add_right_comm, slice_succ, ih, slice_succ, List.cons_append, hi]

theorem slice_congr (h : ∀ j, i ≤ j → j < i + n → f j = g j) : slice f i n = slice g i n := by
  induction n generalizing i with
  | zero => rfl
  | succ n ih =>
    rw [slice_succ, slice_succ, h i (by omega) (by omega)]
    exact congrArg _ (ih fun j hi hj => h j (by omega) (by omega))

/-- What a stretch is known to hold, it holds byte by byte. -/
theorem eq_of_slice_eq_cons {b : α} (h : slice f i (n + 1) = b :: bs) :
    f i = b ∧ slice f (i + 1) n = bs := by
  rw [slice_succ, List.cons.injEq] at h
  exact h

theorem eq_of_slice_eq_append (h : slice f i (bs ++ cs).length = bs ++ cs) :
    slice f i bs.length = bs ∧ slice f (i + bs.length) cs.length = cs := by
  rw [List.length_append, slice_add] at h
  exact List.append_inj h (length_slice ..)

@[simp] theorem write_nil (f : ℤ → α) (i : ℤ) : write f i [] = f := by
  funext j
  simp [write]

theorem write_of_lt (h : j < i) : write f i bs j = f j := if_neg (by omega)

theorem write_of_le (h : i + bs.length ≤ j) : write f i bs j = f j := by
  unfold write
  split
  · rw [List.getD_eq_default _ _ (by omega)]
  · rfl

/-- Writes that follow each other are one write. -/
theorem write_append (f : ℤ → α) (i : ℤ) (bs cs : List α) :
    write (write f i bs) (i + bs.length) cs = write f i (bs ++ cs) := by
  funext j
  by_cases hi : i ≤ j
  · by_cases hj : i + bs.length ≤ j
    · have hk : (j - i).toNat - bs.length = (j - (i + bs.length)).toNat := by omega
      rw [write, if_pos hj, write_of_le hj, write, if_pos hi,
        List.getD_append_right _ _ _ _ (by omega), hk]
    · rw [write_of_lt (by omega), write, if_pos hi, write, if_pos hi,
        List.getD_append _ _ _ _ (by omega)]
  · rw [write_of_lt (by omega), write_of_lt (by omega), write_of_lt (by omega)]

theorem slice_write (f : ℤ → α) (i : ℤ) (bs : List α) : slice (write f i bs) i bs.length = bs := by
  induction bs generalizing f i with
  | nil => rfl
  | cons b bs ih =>
    -- the first byte, and then the rest
    have hrest : write f i (b :: bs) = write (write f i [b]) (i + 1) bs :=
      (write_append f i [b] bs).symm
    rw [List.length_cons, slice_succ, hrest, ih, write_of_lt (by omega)]
    simp [write]

/-- A write elsewhere. -/
theorem slice_write_of_disjoint (h : i + n ≤ j ∨ j + bs.length ≤ i) :
    slice (write f j bs) i n = slice f i n := by
  refine slice_congr fun k hi hk => ?_
  rcases h with h | h
  · exact write_of_lt (by omega)
  · exact write_of_le (by omega)

end Memory

/-! ## Words, most significant byte first -/

def be16 (x : UInt16) : List UInt8 := [(x >>> 8).toUInt8, x.toUInt8]

def be32 (x : UInt32) : List UInt8 :=
  [(x >>> 24).toUInt8, (x >>> 16).toUInt8, (x >>> 8).toUInt8, x.toUInt8]

def ofBe16 (a b : UInt8) : UInt16 := a.toUInt16 <<< 8 ||| b.toUInt16

def ofBe32 (a b c d : UInt8) : UInt32 :=
  a.toUInt32 <<< 24 ||| b.toUInt32 <<< 16 ||| c.toUInt32 <<< 8 ||| d.toUInt32

@[simp] theorem length_be16 (x : UInt16) : (be16 x).length = 2 := rfl

@[simp] theorem length_be32 (x : UInt32) : (be32 x).length = 4 := rfl

/-! The distances of the shifts, as shifts read them. -/

theorem shift24 : (24 : UInt32).toNat % 32 = 24 := rfl

theorem shift16 : (16 : UInt32).toNat % 32 = 16 := rfl

theorem shift8 : (8 : UInt32).toNat % 32 = 8 := rfl

theorem shift8_16 : (8 : UInt16).toNat % 16 = 8 := rfl

/-- Disjoint bits add up. -/
theorem shiftLeft_or {a b i : ℕ} (hb : b < 2 ^ i) : a <<< i ||| b = a * 2 ^ i + b := by
  rw [← Nat.shiftLeft_add_eq_or_of_lt hb, Nat.shiftLeft_eq]

theorem shiftLeft_mod {a i w : ℕ} (ha : a * 2 ^ i < 2 ^ w) : a <<< i % 2 ^ w = a <<< i := by
  rw [Nat.shiftLeft_eq]
  exact Nat.mod_eq_of_lt ha

theorem toNat_ofBe16 (a b : UInt8) : (ofBe16 a b).toNat = a.toNat * 256 + b.toNat := by
  have ha := a.toNat_lt
  have hb := b.toNat_lt
  simp only [ofBe16, UInt16.toNat_or, UInt16.toNat_shiftLeft, UInt8.toNat_toUInt16, shift8_16]
  rw [shiftLeft_mod (by omega), shiftLeft_or (by omega)]
  omega

theorem toNat_ofBe32 (a b c d : UInt8) :
    (ofBe32 a b c d).toNat = ((a.toNat * 256 + b.toNat) * 256 + c.toNat) * 256 + d.toNat := by
  have ha := a.toNat_lt
  have hb := b.toNat_lt
  have hc := c.toNat_lt
  have hd := d.toNat_lt
  simp only [ofBe32, UInt32.toNat_or, UInt32.toNat_shiftLeft, UInt8.toNat_toUInt32, shift24,
    shift16, shift8]
  rw [Nat.or_assoc, Nat.or_assoc, shiftLeft_mod (i := 8) (by omega), shiftLeft_or (by omega),
    shiftLeft_mod (i := 16) (by omega), shiftLeft_or (by omega),
    shiftLeft_mod (i := 24) (by omega), shiftLeft_or (by omega)]
  omega

/-- The bytes of a word make the word. -/
theorem ofBe16_be16 (x : UInt16) : ofBe16 (x >>> 8).toUInt8 x.toUInt8 = x := by
  have hx := x.toNat_lt
  apply UInt16.toNat_inj.mp
  rw [toNat_ofBe16]
  simp only [UInt16.toNat_toUInt8, UInt16.toNat_shiftRight, Nat.shiftRight_eq_div_pow, shift8_16]
  omega

theorem ofBe32_be32 (x : UInt32) :
    ofBe32 (x >>> 24).toUInt8 (x >>> 16).toUInt8 (x >>> 8).toUInt8 x.toUInt8 = x := by
  have hx := x.toNat_lt
  apply UInt32.toNat_inj.mp
  rw [toNat_ofBe32]
  simp only [UInt32.toNat_toUInt8, UInt32.toNat_shiftRight, Nat.shiftRight_eq_div_pow, shift24,
    shift16, shift8]
  omega

/-- Two bytes are the bytes of the word they make. -/
theorem be16_ofBe16 (a b : UInt8) : be16 (ofBe16 a b) = [a, b] := by
  have ha := a.toNat_lt
  have hb := b.toNat_lt
  simp only [be16, List.cons.injEq, and_true, ← UInt8.toNat_inj, UInt16.toNat_toUInt8,
    UInt16.toNat_shiftRight, Nat.shiftRight_eq_div_pow, toNat_ofBe16, shift8_16]
  omega

theorem be32_ofBe32 (a b c d : UInt8) : be32 (ofBe32 a b c d) = [a, b, c, d] := by
  have ha := a.toNat_lt
  have hb := b.toNat_lt
  have hc := c.toNat_lt
  have hd := d.toNat_lt
  simp only [be32, List.cons.injEq, and_true, ← UInt8.toNat_inj, UInt32.toNat_toUInt8,
    UInt32.toNat_shiftRight, Nat.shiftRight_eq_div_pow, toNat_ofBe32, shift24, shift16, shift8]
  omega

/-- The high word and the low word of 64 bits. -/
def ofWords (h l : UInt32) : UInt64 := l.toUInt64 ||| h.toUInt64 <<< 32

theorem toNat_ofWords (h l : UInt32) : (ofWords h l).toNat = h.toNat * 2 ^ 32 + l.toNat := by
  have hh := h.toNat_lt
  have hl := l.toNat_lt
  have h32 : (32 : UInt64).toNat % 64 = 32 := rfl
  simp only [ofWords, UInt64.toNat_or, UInt64.toNat_shiftLeft, UInt32.toNat_toUInt64, h32]
  rw [Nat.or_comm, shiftLeft_mod (by omega), shiftLeft_or (by omega)]

theorem ofWords_words (x : UInt64) : ofWords (x >>> 32).toUInt32 x.toUInt32 = x := by
  have hx := x.toNat_lt
  have h32 : (32 : UInt64).toNat % 64 = 32 := rfl
  apply UInt64.toNat_inj.mp
  rw [toNat_ofWords]
  simp only [UInt64.toNat_toUInt32, UInt64.toNat_shiftRight, Nat.shiftRight_eq_div_pow, h32]
  omega

theorem words_ofWords (h l : UInt32) :
    (ofWords h l >>> 32).toUInt32 = h ∧ (ofWords h l).toUInt32 = l := by
  have hh := h.toNat_lt
  have hl := l.toNat_lt
  have h32 : (32 : UInt64).toNat % 64 = 32 := rfl
  simp only [← UInt32.toNat_inj, UInt64.toNat_toUInt32, UInt64.toNat_shiftRight,
    Nat.shiftRight_eq_div_pow, toNat_ofWords, h32]
  omega
/-! ### The low byte of a word -/

@[simp] theorem toUInt8_and16 (x : UInt16) : (x &&& 0xff).toUInt8 = x.toUInt8 := by
  have hff : (255 : UInt16).toNat = 2 ^ 8 - 1 := rfl
  apply UInt8.toNat_inj.mp
  simp only [UInt16.toNat_toUInt8, UInt16.toNat_and, hff, Nat.and_two_pow_sub_one_eq_mod]
  omega

@[simp] theorem toUInt8_and32 (x : UInt32) : (x &&& 0xff).toUInt8 = x.toUInt8 := by
  have hff : (255 : UInt32).toNat = 2 ^ 8 - 1 := rfl
  apply UInt8.toNat_inj.mp
  simp only [UInt32.toNat_toUInt8, UInt32.toNat_and, hff, Nat.and_two_pow_sub_one_eq_mod]
  omega

/-- The sign of a byte that was extended to a word is masked away. -/
@[simp] theorem signExtend_and (b : UInt8) : b.toInt8.toInt32.toUInt32 &&& 0xff = b.toUInt32 := by
  apply UInt32.eq_of_toBitVec_eq
  apply BitVec.eq_of_getLsbD_eq
  intro i hi
  simp only [UInt32.toBitVec_and, UInt8.toBitVec_toUInt32]
  simp [BitVec.getLsbD_signExtend]
  interval_cases i <;> simp

theorem toUInt8_signExtend (b : UInt8) : b.toInt8.toInt32.toUInt32.toUInt8 = b := by
  rw [← toUInt8_and32, signExtend_and]
  simp

theorem toUInt16_or (x : UInt16) (y : UInt32) : (x.toUInt32 ||| y).toUInt16 = x ||| y.toUInt16 := by
  simp

theorem toUInt16_signExtend_or (x : UInt16) (y : UInt32) :
    (x.toInt16.toInt32.toUInt32 ||| y).toUInt16 = x ||| y.toUInt16 := by
  apply UInt16.eq_of_toBitVec_eq
  apply BitVec.eq_of_getLsbD_eq
  intro i hi
  simp [BitVec.getLsbD_signExtend]
  interval_cases i <;> simp

theorem ofBe16_eq (a b : UInt8) :
    (a.toUInt32 <<< 8).toUInt16 ||| b.toUInt32.toUInt16 = ofBe16 a b := by
  simp [ofBe16]

/-- A byte of a signed word: the shift brings in copies of the sign, which are masked away. -/
theorem toUInt8_shiftRight_and (x : Int32) :
    ((x >>> 24) &&& 0xff).toUInt32.toUInt8 = (x.toUInt32 >>> 24).toUInt8
      ∧ ((x >>> 16) &&& 0xff).toUInt32.toUInt8 = (x.toUInt32 >>> 16).toUInt8
      ∧ ((x >>> 8) &&& 0xff).toUInt32.toUInt8 = (x.toUInt32 >>> 8).toUInt8
      ∧ (x &&& 0xff).toUInt32.toUInt8 = x.toUInt32.toUInt8 := by
  refine ⟨?_, ?_, ?_, ?_⟩
  all_goals
    apply UInt8.eq_of_toBitVec_eq
    apply BitVec.eq_of_getLsbD_eq
    intro i hi
    simp
    interval_cases i <;> simp [BitVec.getElem_sshiftRight]

end Bytes
