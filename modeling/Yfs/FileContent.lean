/-
File contents (`setSize`, `readFile`, `writeFile` of `yfs_client.cc`) follow POSIX.

The three functions compute with `unsigned int` and `size_t` and have a branch for
each position of the range relative to the end of the file. In the range where the sum
`off + size` does not wrap, each is the operation of `ByteFile` on the same file, so
that what stands at each position, and what a read after a write returns, are the laws
of that file.
-/
import Yfs.ByteFile
import Yfs.FileStore

set_option autoImplicit false

namespace Yfs.FileContent

open Text Yfs.YfsClient Yfs.FileStore
open Yfs.Dir (Files xxstatus)

/-! ## The functions on the content -/

/-- `writeFile` is a write, up to the end of the file and past it, as long as
`off + size` does not wrap where it is compared with the length. -/
theorem writeFile_content_eq (fileExt : Str) {buf : Str} {off size : ℕ} (hbuf : buf.length = size)
    (hoff : off < 2 ^ 32) (hrange : off + size < 2 ^ 32 ∨ fileExt.length ≤ off) :
    writeFile_content fileExt off size buf = ByteFile.write '\x00' fileExt off buf := by
  unfold writeFile_content ByteFile.write
  by_cases hend : fileExt.length ≤ off
  · have hnulls : (off - fileExt.length) % 2 ^ 32 = off - fileExt.length :=
      Nat.mod_eq_of_lt (by omega)
    have hpad : (ByteFile.pad '\x00' fileExt off).length = off := by
      rw [ByteFile.length_pad]
      omega
    rw [if_pos hend, List.take_of_length_le (le_of_eq hpad), ByteFile.pad,
      List.drop_eq_nil_of_le (by omega), List.append_nil, hnulls]
  · have hstop : (off + size) % 2 ^ 32 = off + size := Nat.mod_eq_of_lt (by omega)
    have hgap : off - fileExt.length = 0 := by omega
    rw [if_neg hend, ByteFile.pad, hgap, List.replicate_zero, List.append_nil, hstop, hbuf]
    dsimp only
    split
    · have htail : (fileExt.drop (off + size)).length ≤ fileExt.length - (off + size) :=
        le_of_eq List.length_drop
      rw [List.take_of_length_le htail]
    · rw [List.drop_eq_nil_of_le (by omega), List.append_nil]

/-- `readFile` is a read: the branch for a range over the end cuts where `take` does. -/
theorem readFile_content_eq (fileExt : Str) (off size : ℕ) :
    readFile_content fileExt off size = ByteFile.read fileExt off size := by
  unfold readFile_content ByteFile.read
  split
  · rw [List.drop_eq_nil_of_le (by omega), List.take_nil]
  · split
    · rw [List.take_of_length_le (by rw [List.length_drop]),
        List.take_of_length_le (by rw [List.length_drop]; omega)]
    · rfl

theorem setSize_content_eq (fileExt : Str) {size : ℕ} (hsize : size < 2 ^ 32) :
    setSize_content fileExt size = ByteFile.resize '\x00' fileExt size := by
  unfold setSize_content ByteFile.resize ByteFile.pad
  split
  · next hzero => rw [hzero, List.take_zero]
  · split
    · rw [List.take_append_of_le_length (by omega)]
    · have hnulls : (size - fileExt.length) % 2 ^ 32 = size - fileExt.length :=
        Nat.mod_eq_of_lt (by omega)
      rw [hnulls, List.take_of_length_le]
      rw [List.length_append, List.length_replicate]
      omega

/-! ## The operations on the store -/

section Ops

variable {times : ℕ → Extent.attr} {files : Files} {held : List ℕ} {ino : ℕ} {old : Str}

theorem perform_rewrite_some (hfree : ino ∉ held) (hfile : files ino = some old)
    (f : Str → Str) :
    perform times (rewrite ino f) ⟨files, held⟩
      = some (.OK, ⟨Function.update files ino (some (f old)), held⟩) := by
  rw [perform_rewrite hfree, rewritten, hfile]

theorem perform_readFile_some (hfree : ino ∉ held) (hfile : files ino = some old)
    (off size : ℕ) (buf : Str) :
    perform times (readFile ino off size buf) ⟨files, held⟩
      = some ((.OK, ByteFile.read old off size), ⟨files, held⟩) := by
  rw [perform_readFile hfree, readBytes, hfile, ← readFile_content_eq]

/-- **File contents follow POSIX.** For every content and every range that does not wrap:
`writeFile` replaces the bytes of its range and no others, fills a gap with null bytes
and sets the length to the maximum; a read of the range then returns the buffer, and a
read of a disjoint range below the old length what it returned before. `readFile` returns
the bytes of its range that exist. `setSize` cuts or extends with null bytes, and every
read after it sees exactly that. -/
theorem file_contents_posix (hfree : ino ∉ held) (hfile : files ino = some old) {off size : ℕ}
    (hrange : off + size < 2 ^ 32) :
    (∀ buf : Str, buf.length = size → ∃ new : Str,
        perform times (writeFile ino off size buf) ⟨files, held⟩
            = some (.OK, ⟨Function.update files ino (some new), held⟩)
          ∧ new.length = max old.length (off + size)
          ∧ (∀ i, off ≤ i → i < off + size → new[i]? = buf[i - off]?)
          ∧ (∀ i, i < off ∨ off + size ≤ i → i < old.length → new[i]? = old[i]?)
          ∧ (∀ i, old.length ≤ i → i < off → new[i]? = some '\x00')
          ∧ (∀ b, perform times (readFile ino off size b)
                ⟨Function.update files ino (some new), held⟩
              = some ((.OK, buf), ⟨Function.update files ino (some new), held⟩))
          ∧ ∀ o n b, o + n ≤ old.length → o + n ≤ off ∨ off + size ≤ o →
              (perform times (readFile ino o n b)
                  ⟨Function.update files ino (some new), held⟩).map Prod.fst
                = (perform times (readFile ino o n b) ⟨files, held⟩).map Prod.fst)
      ∧ (∀ b, ∃ bytes : Str,
          perform times (readFile ino off size b) ⟨files, held⟩
              = some ((.OK, bytes), ⟨files, held⟩)
            ∧ ∀ i, bytes[i]? = if i < size then old[off + i]? else none)
      ∧ ∃ new : Str,
          perform times (setSize ino size) ⟨files, held⟩
              = some (.OK, ⟨Function.update files ino (some new), held⟩)
            ∧ new.length = size
            ∧ (∀ i, i < size → new[i]? = if i < old.length then old[i]? else some '\x00')
            ∧ ∀ o n b, ∃ bytes : Str,
                perform times (readFile ino o n b)
                    ⟨Function.update files ino (some new), held⟩
                  = some ((.OK, bytes), ⟨Function.update files ino (some new), held⟩)
                ∧ ∀ i, bytes[i]? = if i < n ∧ o + i < size
                    then (if o + i < old.length then old[o + i]? else some '\x00') else none := by
  refine ⟨fun buf hbuf => ?_, fun b => ?_, ?_⟩
  · refine ⟨ByteFile.write '\x00' old off buf, ?_, ?_, ?_, ?_, ?_, ?_, ?_⟩
    · have heq := writeFile_content_eq old hbuf (by omega) (.inl hrange)
      rw [writeFile, perform_rewrite_some hfree hfile, heq]
    · rw [ByteFile.length_write, hbuf]
    · intro i hlow hhigh
      rw [ByteFile.getElem?_write, if_pos (by omega)]
    · intro i hout hlen
      rw [ByteFile.getElem?_write, if_neg (by omega), if_pos hlen]
    · intro i hlen hlow
      rw [ByteFile.getElem?_write, if_neg (by omega), if_neg (by omega), if_pos hlow]
    · intro b
      rw [perform_readFile_some hfree (Function.update_self ..), ← hbuf,
        ByteFile.read_write_self]
    · intro o n b hlen hout
      rw [perform_readFile_some hfree (Function.update_self ..),
        perform_readFile_some hfree hfile,
        ByteFile.read_write_of_disjoint '\x00' old off buf hlen (by omega)]
      rfl
  · exact ⟨_, perform_readFile_some hfree hfile off size b, ByteFile.getElem?_read old off size⟩
  · refine ⟨ByteFile.resize '\x00' old size, ?_, ByteFile.length_resize '\x00' old size, ?_, ?_⟩
    · rw [setSize, perform_rewrite_some hfree hfile, setSize_content_eq old (by omega)]
    · intro i hi
      rw [ByteFile.getElem?_resize, if_pos hi]
    · intro o n b
      refine ⟨_, perform_readFile_some hfree (Function.update_self ..) o n b, fun i => ?_⟩
      rw [ByteFile.getElem?_read, ByteFile.getElem?_resize]
      by_cases hi : i < n
      · by_cases hsize : o + i < size
        · rw [if_pos hi, if_pos hsize, if_pos (And.intro hi hsize)]
        · rw [if_pos hi, if_neg hsize, if_neg fun h : i < n ∧ o + i < size => hsize h.2]
      · rw [if_neg hi, if_neg fun h : i < n ∧ o + i < size => hi h.1]

end Ops

/-- A store with one file of three bytes. -/
def threeBytes : Files := Function.update (fun _ => none) 7 (some ['a', 'b', 'c'])

/-- Two bytes written past its end. -/
theorem file_contents_posix_gap :
    ∃ new : Str,
      perform (fun _ => ⟨0, 0, 0, 0⟩) (writeFile 7 5 2 ['x', 'y']) ⟨threeBytes, []⟩
        = some (.OK, ⟨Function.update threeBytes 7 (some new), []⟩)
      ∧ new.length = 7 ∧ new[4]? = some '\x00' ∧ new[6]? = some 'y' := by
  have hfile : threeBytes 7 = some ['a', 'b', 'c'] := Function.update_self ..
  have hrange : 5 + 2 < 2 ^ 32 := by decide
  obtain ⟨new, hperform, hlen, hbuf, -, hgap, -⟩ :=
    (file_contents_posix List.not_mem_nil hfile hrange).1 ['x', 'y'] rfl
  exact ⟨new, hperform, hlen, hgap 4 (by decide) (by decide), hbuf 6 (by decide) (by decide)⟩

end Yfs.FileContent
