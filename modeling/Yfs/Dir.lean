/-
Directories (`yfs_client.cc`, `fuse.cc`): a directory is one extent whose text lists
its entries as `name:inum|`, and four operations split, filter and extend that text
independently of each other.

The extents are the ones a lock holder sees, so `get` returns the content of the most
recent `put` (`ExtentCoherence`), and `put` and `remove` succeed. What an operation
does while it holds the directory's lock is one function here; `create`, `mkdir` and
`unlink` are two, because `lookup` returns to them with the lock still held.
-/
import Yfs.StringSplit
import Mathlib.Logic.Function.Basic

set_option autoImplicit false

namespace Yfs.Dir

open Text Yfs.StringSplit

/-- `yfs_client::xxstatus`. -/
inductive xxstatus where
  | OK | RPCERR | NOENT | IOERR | EXIST
  deriving DecidableEq, Repr

/-- `yfs_client::dirent`. -/
structure dirent where
  name : Str
  inum : ℕ
  deriving DecidableEq, Repr

/-- The extents, by inum. -/
abbrev Files := ℕ → Option Str

/-- `istringstream iss(s); iss >> inum`. -/
def readInum (s : Str) (old : ℕ) : ℕ := ((Istream.open s).unsigned 64 old).1

/-- `isfile`: bit 31 is set. -/
def isfile (inum : ℕ) : Bool := inum &&& 0x80000000 != 0

/-! ## The operations on the text -/

/-- The loop of `lookup` over the pairs: stop at the first one with this name. -/
def lookup_loop (nameToFind : Str) (child : ℕ) : List Str → Bool × ℕ
  | [] => (false, child)
  | it :: pairs =>
    match Split it [':'] true true with
    | [a, b] => if nameToFind = a then (true, readInum b child)
      else lookup_loop nameToFind child pairs
    | _ => lookup_loop nameToFind child pairs

/-- The loop of `unlink`: keep every pair with another name. -/
def unlink_loop (fileName : Str) : List Str → Str
  | [] => []
  | it :: pairs =>
    match Split it [':'] true true with
    | [a, _] => if fileName ≠ a then it ++ '|' :: unlink_loop fileName pairs
      else unlink_loop fileName pairs
    -- a pair that does not split in two is dropped as well
    | _ => unlink_loop fileName pairs

/-- The loop of `readDir`; `junk` is the uninitialised field of the local `dirent`. -/
def readDir_loop (junk : ℕ) : List Str → List dirent
  | [] => []
  | it :: pairs =>
    match Split it [':'] true true with
    | [a, b] => ⟨a, readInum b junk⟩ :: readDir_loop junk pairs
    | _ => readDir_loop junk pairs

/-- What `addDirent` appends for one entry. -/
def direntText (name : Str) (inum : ℕ) : Str := name ++ ':' :: (dec inum ++ ['|'])

/-! ## The operations of `yfs_client` -/

/-- `lookup`, with `child` the caller's variable. -/
def lookup (files : Files) (name : Str) (parent child : ℕ) : xxstatus × Bool × ℕ :=
  match files parent with
  | none => (.NOENT, false, child)
  | some parentDirCont =>
    (.OK, lookup_loop name child (Split parentDirCont ['|'] true true))

def addDirent (files : Files) (dirInum fileInum : ℕ) (name : Str) : xxstatus × Files :=
  match files dirInum with
  | none => (.NOENT, files)
  | some oldExt =>
    -- the new extent is put after the directory: with `fileInum = dirInum` the put
    -- would empty the directory it has just extended
    (.OK, Function.update (Function.update files dirInum
      (some (oldExt ++ direntText name fileInum)))
      fileInum (some []))

def unlink (files : Files) (dirInum fileInum : ℕ) (name : Str) : xxstatus × Files :=
  match files dirInum with
  | none => (.NOENT, files)
  | some dirExtent =>
    (.OK, Function.update
      (Function.update files dirInum (some (unlink_loop name (Split dirExtent ['|'] true true))))
      fileInum none)

def readDir (files : Files) (dirInum junk : ℕ) : xxstatus × List dirent :=
  match files dirInum with
  | none => (.NOENT, [])
  | some dirContent => (.OK, readDir_loop junk (Split dirContent ['|'] true true))

/-! ## Drawing an inum -/

/-- `ino = random(); while (ino == 0x00000001) ino = random();` -/
def drawIno : List ℕ → Option ℕ
  | [] => none
  | r :: draws => if r = 1 then drawIno draws else some r

/-- `fuseserver_createhelper` sets bit 31. -/
def fileIno (r : ℕ) : ℕ := (r &&& (2 ^ 32 - 1)) ||| 2 ^ 31

/-- `fuseserver_mkdir` clears bit 31 and everything above. -/
def dirIno (r : ℕ) : ℕ := r &&& (2 ^ 31 - 1)

theorem fileIno_lt (r : ℕ) : fileIno r < 2 ^ 64 := by
  have h1 : r &&& (2 ^ 32 - 1) < 2 ^ 64 :=
    lt_of_le_of_lt Nat.and_le_right (by decide)
  exact Nat.or_lt_two_pow h1 (by decide)

theorem dirIno_lt (r : ℕ) : dirIno r < 2 ^ 64 :=
  lt_of_le_of_lt Nat.and_le_right (by decide)

/-! ## What the text of well-formed entries decodes to -/

/-- A name that may be stored: not empty, with neither delimiter in it. -/
def NameOk (name : Str) : Prop := name ≠ [] ∧ ':' ∉ name ∧ '|' ∉ name

instance (name : Str) : Decidable (NameOk name) :=
  inferInstanceAs (Decidable (name ≠ [] ∧ ':' ∉ name ∧ '|' ∉ name))

def EntryOk (e : dirent) : Prop := NameOk e.name ∧ e.inum < 2 ^ 64

/-- The text of one entry without its terminator. -/
def pairText (e : dirent) : Str := e.name ++ ':' :: dec e.inum

/-- The text of a directory. -/
def encode (m : List dirent) : Str := m.flatMap fun e => direntText e.name e.inum

theorem not_mem_dec {c : Char} (hc : c.isDigit = false) (n : ℕ) : c ∉ dec n := by
  intro h
  rw [isDigit_of_mem_dec h] at hc
  cases hc

/-- Neither a name nor an inum has a colon, so an entry splits into just the two. -/
theorem Split_pair {e : dirent} (he : EntryOk e) :
    Split (pairText e) [':'] true true = [e.name, dec e.inum] := by
  obtain ⟨⟨hne, hcolon, -⟩, -⟩ := he
  have hd : ':' ∉ dec e.inum := not_mem_dec (by decide) _
  rw [pairText, Split_token ':' true _ hcolon, Split_last ':' true hd]
  simp [keep, hne, dec_ne_nil]

/-- No entry has a bar, so the content splits into its entries. -/
theorem Split_encode {m : List dirent} (hm : ∀ e ∈ m, EntryOk e) :
    Split (encode m) ['|'] true true = m.map pairText := by
  induction m with
  | nil => exact Split_last '|' true (by simp [encode])
  | cons e m ih =>
    have he := hm e List.mem_cons_self
    have hbar : '|' ∉ pairText e := by
      simp only [pairText, List.mem_append, List.mem_cons, not_or]
      exact ⟨he.1.2.2, by decide, not_mem_dec (by decide) _⟩
    have htext : encode (e :: m) = pairText e ++ '|' :: encode m := by
      simp [encode, direntText, pairText]
    rw [htext, Split_token '|' true _ hbar, ih fun e' he' => hm e' (List.mem_cons_of_mem _ he')]
    simp [keep, pairText]

theorem readInum_dec {n : ℕ} (hn : n < 2 ^ 64) (old : ℕ) : readInum (dec n) old = n := by
  have h := unsigned_read (b := []) (r := []) old (fun _ hc => by cases hc) hn
    (fun _ hc => by cases hc)
  rw [List.nil_append, List.append_nil] at h
  rw [readInum, h]

/-- Induction on the entries: the loop stops at the first of the name. -/
theorem lookup_loop_encode {m : List dirent} (hm : ∀ e ∈ m, EntryOk e) (name : Str) (child : ℕ) :
    lookup_loop name child (m.map pairText)
      = match m.find? (fun e => e.name == name) with
        | some e => (true, e.inum)
        | none => (false, child) := by
  induction m with
  | nil => rfl
  | cons e m ih =>
    have he := hm e List.mem_cons_self
    have ih := ih fun e' he' => hm e' (List.mem_cons_of_mem _ he')
    simp only [List.map_cons, lookup_loop, Split_pair he]
    -- the loop stops at the first pair with this name, as `find?` does
    by_cases hname : name = e.name
    · rw [if_pos hname, List.find?_cons_of_pos (by simp [hname]), readInum_dec he.2]
    · rw [if_neg hname, List.find?_cons_of_neg (by simp [Ne.symm hname]), ih]

/-- Induction on the entries: those of another name are written again as they were. -/
theorem unlink_loop_encode {m : List dirent} (hm : ∀ e ∈ m, EntryOk e) (name : Str) :
    unlink_loop name (m.map pairText) = encode (m.filter fun e => e.name != name) := by
  induction m with
  | nil => rfl
  | cons e m ih =>
    have he := hm e List.mem_cons_self
    have ih := ih fun e' he' => hm e' (List.mem_cons_of_mem _ he')
    simp only [List.map_cons, unlink_loop, Split_pair he]
    by_cases hname : name = e.name
    · rw [if_neg (not_not_intro hname), List.filter_cons_of_neg (by simp [hname]), ih]
    · rw [if_pos hname, List.filter_cons_of_pos (by simp [Ne.symm hname]), ih]
      simp [encode, direntText, pairText]

theorem readDir_loop_encode {m : List dirent} (hm : ∀ e ∈ m, EntryOk e) (junk : ℕ) :
    readDir_loop junk (m.map pairText) = m := by
  induction m with
  | nil => rfl
  | cons e m ih =>
    have he := hm e List.mem_cons_self
    have ih := ih fun e' he' => hm e' (List.mem_cons_of_mem _ he')
    simp only [List.map_cons, readDir_loop, Split_pair he, readInum_dec he.2, ih]

end Yfs.Dir
