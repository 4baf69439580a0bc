/-
Files as finite sequences of bytes: writing at an offset, reading a range, changing
the size.

A write past the end fills the gap with `zero`, and so does growing a file. Each
operation is described by what stands at each position; the laws between operations
(what a read after a write returns) follow from these descriptions alone.
-/
import Mathlib.Data.List.Basic

set_option autoImplicit false

namespace ByteFile

variable {α : Type*} (zero : α)

/-- At least `n` bytes: the file, and `zero` behind it. -/
def pad (f : List α) (n : ℕ) : List α := f ++ List.replicate (n - f.length) zero

/-- The file after `buf` has been written at `off`. -/
def write (f : List α) (off : ℕ) (buf : List α) : List α :=
  (pad zero f off).take off ++ buf ++ f.drop (off + buf.length)

/-- The bytes of `[off, off + size)` that exist. -/
def read (f : List α) (off size : ℕ) : List α := (f.drop off).take size

/-- The file cut or extended to `size` bytes. -/
def resize (f : List α) (size : ℕ) : List α := (pad zero f size).take size

/-! ## What stands at a position -/

theorem length_pad (f : List α) (n : ℕ) : (pad zero f n).length = max f.length n := by
  rw [pad, List.length_append, List.length_replicate]
  omega

theorem getElem?_pad (f : List α) (n i : ℕ) :
    (pad zero f n)[i]? = if i < f.length then f[i]? else if i < n then some zero else none := by
  rw [pad, List.getElem?_append, List.getElem?_replicate]
  by_cases hi : i < f.length
  · rw [if_pos hi, if_pos hi]
  · rw [if_neg hi, if_neg hi]
    by_cases hn : i < n
    · rw [if_pos (by omega), if_pos hn]
    · rw [if_neg (by omega), if_neg hn]

theorem length_write (f : List α) (off : ℕ) (buf : List α) :
    (write zero f off buf).length = max f.length (off + buf.length) := by
  rw [write, List.length_append, List.length_append, List.length_take, length_pad,
    List.length_drop]
  omega

/-- **A write**: the buffer in its range, the old bytes elsewhere, `zero` in the gap. -/
theorem getElem?_write (f : List α) (off : ℕ) (buf : List α) (i : ℕ) :
    (write zero f off buf)[i]?
      = if off ≤ i ∧ i < off + buf.length then buf[i - off]?
        else if i < f.length then f[i]?
        else if i < off then some zero else none := by
  have htake : ((pad zero f off).take off).length = off := by
    rw [List.length_take, length_pad]
    omega
  rw [write, List.append_assoc, List.getElem?_append, htake]
  by_cases hlow : i < off
  · rw [if_pos hlow, if_neg (by omega), List.getElem?_take, if_pos hlow, getElem?_pad,
      if_pos hlow]
  · rw [if_neg hlow, List.getElem?_append]
    by_cases hmid : i < off + buf.length
    · rw [if_pos (by omega), if_pos (by omega)]
    · rw [if_neg (by omega), if_neg (by omega), List.getElem?_drop, if_neg hlow]
      have hpos : off + buf.length + (i - off - buf.length) = i := by omega
      rw [hpos]
      by_cases hlen : i < f.length
      · rw [if_pos hlen]
      · rw [if_neg hlen, List.getElem?_eq_none (by omega)]

theorem getElem?_read (f : List α) (off size i : ℕ) :
    (read f off size)[i]? = if i < size then f[off + i]? else none := by
  rw [read, List.getElem?_take, List.getElem?_drop]

theorem length_resize (f : List α) (size : ℕ) : (resize zero f size).length = size := by
  rw [resize, List.length_take, length_pad]
  omega

theorem getElem?_resize (f : List α) (size i : ℕ) :
    (resize zero f size)[i]?
      = if i < size then (if i < f.length then f[i]? else some zero) else none := by
  rw [resize, List.getElem?_take, getElem?_pad]
  by_cases hi : i < size
  · rw [if_pos hi, if_pos hi, if_pos hi]
  · rw [if_neg hi, if_neg hi]

/-! ## Reads after writes -/

/-- A read of the written range returns the buffer. -/
theorem read_write_self (f : List α) (off : ℕ) (buf : List α) :
    read (write zero f off buf) off buf.length = buf := by
  refine List.ext_getElem? fun i => ?_
  rw [getElem?_read, getElem?_write]
  by_cases hi : i < buf.length
  · rw [if_pos hi, if_pos (by omega), Nat.add_sub_cancel_left]
  · rw [if_neg hi, List.getElem?_eq_none (by omega)]

/-- A read below the old length that does not meet the written range is not affected. -/
theorem read_write_of_disjoint (f : List α) (off : ℕ) (buf : List α) {o n : ℕ}
    (hlen : o + n ≤ f.length) (h : o + n ≤ off ∨ off + buf.length ≤ o) :
    read (write zero f off buf) o n = read f o n := by
  refine List.ext_getElem? fun i => ?_
  rw [getElem?_read, getElem?_read, getElem?_write]
  by_cases hi : i < n
  · rw [if_pos hi, if_pos hi, if_neg (by omega), if_pos (by omega)]
  · rw [if_neg hi, if_neg hi]

end ByteFile
