/-
`yfs_client` (`yfs_client.cc`): the file system operations as programs over calls to
the lock client and the extent client.

Each function is translated with the calls it makes, in their order and on every
branch; what a call returns is left open. `lock_client_cache::acquire` and `release`
return a status that no caller looks at, so their answer is `Unit`. An argument that
the source passes as `unsigned int` is a natural number below `2 ^ 32` here, and the
sums and differences the source stores in one are taken modulo `2 ^ 32`.

The text of a directory is handled by the loops of `Dir`.
-/
import Yfs.Calls
import Yfs.Dir
import Yfs.Extent

set_option autoImplicit false

namespace Yfs.YfsClient

open Text Calls Yfs.StringSplit Yfs.Dir

/-! ## The calls -/

/-- The calls the operations make. -/
inductive Call where
  /-- `lc->acquire(lid)`. -/
  | acquire (lid : ℕ)
  /-- `lc->release(lid)`. -/
  | release (lid : ℕ)
  /-- `ec->get(eid, buf)`. -/
  | get (eid : ℕ)
  /-- `ec->getattr(eid, a)`. -/
  | getattr (eid : ℕ)
  /-- `ec->put(eid, buf)`. -/
  | put (eid : ℕ) (buf : Str)
  /-- `ec->remove(eid)`. -/
  | remove (eid : ℕ)
  /-- The loop over `random()` that has not come to its end. -/
  | drawing
  deriving DecidableEq, Repr

/-- What a call returns. -/
def Call.Answer : Call → Type
  | acquire _ => Unit
  | release _ => Unit
  | get _ => Extent.xxstatus × Str
  | getattr _ => Extent.xxstatus × Extent.attr
  | put _ _ => Extent.xxstatus
  | remove _ => Extent.xxstatus
  | drawing => Empty

/-- An operation of the file system. -/
abbrev FsProg := Prog Call Call.Answer

/-- A call with its answer. -/
abbrev Ev := Event Call Call.Answer

def acquire (lid : ℕ) : FsProg Unit := Prog.call (.acquire lid) .ret

def release (lid : ℕ) : FsProg Unit := Prog.call (.release lid) .ret

def ec_get (eid : ℕ) : FsProg (Extent.xxstatus × Str) := Prog.call (.get eid) .ret

def ec_getattr (eid : ℕ) : FsProg (Extent.xxstatus × Extent.attr) := Prog.call (.getattr eid) .ret

def ec_put (eid : ℕ) (buf : Str) : FsProg Extent.xxstatus := Prog.call (.put eid buf) .ret

def ec_remove (eid : ℕ) : FsProg Extent.xxstatus := Prog.call (.remove eid) .ret

/-- A program that does not come back from its loop over `random()`. -/
def drawing {α : Type} : FsProg α := Prog.call .drawing fun x => nomatch x

/-! ## Attributes -/

/-- `isdir`. -/
def isdir (inum : ℕ) : Bool := !isfile inum

/-- `yfs_client::fileinfo`. -/
structure fileinfo where
  size : ℕ
  atime : ℕ
  mtime : ℕ
  ctime : ℕ
  deriving DecidableEq, Repr

/-- `yfs_client::dirinfo`. -/
structure dirinfo where
  atime : ℕ
  mtime : ℕ
  ctime : ℕ
  deriving DecidableEq, Repr

/-- `fin` is the caller's variable, unchanged when the call fails. -/
def getfile (inum : ℕ) (fin : fileinfo) : FsProg (xxstatus × fileinfo) := do
  acquire inum
  let r ← ec_getattr inum
  let out : xxstatus × fileinfo :=
    if r.1 ≠ .OK then (.IOERR, fin) else (.OK, ⟨r.2.size, r.2.atime, r.2.mtime, r.2.ctime⟩)
  release inum
  return out

def getdir (inum : ℕ) (din : dirinfo) : FsProg (xxstatus × dirinfo) := do
  acquire inum
  let r ← ec_getattr inum
  let out : xxstatus × dirinfo :=
    if r.1 ≠ .OK then (.IOERR, din) else (.OK, ⟨r.2.atime, r.2.mtime, r.2.ctime⟩)
  release inum
  return out

/-! ## Directories -/

/-- `lookup`: the lock is given back when the directory cannot be read, and otherwise
only if this is the whole operation. -/
def lookup (name : Str) (parent child : ℕ) (singleOp : Bool) :
    FsProg (xxstatus × Bool × ℕ) := do
  acquire parent
  let r ← ec_get parent
  if r.1 ≠ .OK then
    release parent
    return (.NOENT, false, child)
  else
    let out := lookup_loop name child (Split r.2 ['|'] true true)
    if singleOp then
      release parent
      return (.OK, out)
    else
      return (.OK, out)

/-- What `addDirent` does with the directory it has got: the new extent is not put when
the directory cannot be. -/
def addDirent_puts (dirInum fileInum : ℕ) (name : Str) (r : Extent.xxstatus × Str) :
    FsProg xxstatus := do
  if r.1 = .OK then
    let r₁ ← ec_put dirInum (r.2 ++ direntText name fileInum)
    if r₁ = .OK then
      let r₂ ← ec_put fileInum []
      return if r₂ ≠ .OK then .RPCERR else .OK
    else
      return .RPCERR
  else
    return .NOENT

/-- `addDirent`, called with the directory's lock held; it gives back both locks. -/
def addDirent (dirInum fileInum : ℕ) (name : Str) : FsProg xxstatus := do
  acquire fileInum
  let r ← ec_get dirInum
  let ret ← addDirent_puts dirInum fileInum name r
  release fileInum
  release dirInum
  return ret

/-- What `unlink` does with the directory it has got. -/
def unlink_puts (dirInum fileInum : ℕ) (name : Str) (r : Extent.xxstatus × Str) :
    FsProg xxstatus := do
  if r.1 = .OK then
    let r₁ ← ec_put dirInum (unlink_loop name (Split r.2 ['|'] true true))
    if r₁ = .OK then
      let r₂ ← ec_remove fileInum
      return if r₂ ≠ .OK then .IOERR else .OK
    else
      return .RPCERR
  else
    return .NOENT

/-- `unlink`, called with the directory's lock held; it gives back both locks. -/
def unlink (dirInum fileInum : ℕ) (name : Str) : FsProg xxstatus := do
  acquire fileInum
  let r ← ec_get dirInum
  let ret ← unlink_puts dirInum fileInum name r
  release fileInum
  release dirInum
  return ret

/-- `junk` is the uninitialised field of the local `dirent`. -/
def readDir (dirInum junk : ℕ) : FsProg (xxstatus × List dirent) := do
  acquire dirInum
  let r ← ec_get dirInum
  let out : xxstatus × List dirent :=
    if r.1 ≠ .OK then (.NOENT, [])
    else (.OK, readDir_loop junk (Split r.2 ['|'] true true))
  release dirInum
  return out

/-! ## Files

What the three functions make of the content `fileExt` they have read. -/

/-- The content `setSize` puts. -/
def setSize_content (fileExt : Str) (size : ℕ) : Str :=
  if size = 0 then []
  else if size ≤ fileExt.length then fileExt.take size
  else
    let toAppend := (size - fileExt.length) % 2 ^ 32
    fileExt ++ List.replicate toAppend '\x00'

/-- What `readFile` leaves in `buf`. -/
def readFile_content (fileExt : Str) (off size : ℕ) : Str :=
  if fileExt.length ≤ off then []
  else if fileExt.length - off < size then (fileExt.drop off).take (fileExt.length - off)
  else (fileExt.drop off).take size

/-- The content `writeFile` puts. `off + size` is a sum of two `unsigned int`, and so is
taken modulo `2 ^ 32` before it is compared with a length. -/
def writeFile_content (fileExt : Str) (off size : ℕ) (buf : Str) : Str :=
  if fileExt.length ≤ off then
    let numOfNulls := (off - fileExt.length) % 2 ^ 32
    fileExt ++ List.replicate numOfNulls '\x00' ++ buf
  else
    let stop := (off + size) % 2 ^ 32
    if stop < fileExt.length then
      fileExt.take off ++ buf ++ (fileExt.drop stop).take (fileExt.length - stop)
    else fileExt.take off ++ buf

/-- Put what `f` makes of a file that has been got. -/
def rewrite_put (ino : ℕ) (f : Str → Str) (r : Extent.xxstatus × Str) : FsProg xxstatus := do
  if r.1 = .OK then
    let r₁ ← ec_put ino (f r.2)
    return if r₁ ≠ .OK then .RPCERR else .OK
  else
    return .NOENT

/-- Get a file, put what `f` makes of it, and give the lock back. -/
def rewrite (ino : ℕ) (f : Str → Str) : FsProg xxstatus := do
  acquire ino
  let r ← ec_get ino
  let ret ← rewrite_put ino f r
  release ino
  return ret

/-- `setSize`: its three branches put different contents and are otherwise the same. -/
def setSize (ino size : ℕ) : FsProg xxstatus :=
  rewrite ino fun fileExt => setSize_content fileExt size

/-- `buf` is the caller's string, unchanged when the call fails. -/
def readFile (ino off size : ℕ) (buf : Str) : FsProg (xxstatus × Str) := do
  acquire ino
  let r ← ec_get ino
  let out : xxstatus × Str :=
    if r.1 = .OK then (.OK, readFile_content r.2 off size) else (.NOENT, buf)
  release ino
  return out

def writeFile (ino off size : ℕ) (buf : Str) : FsProg xxstatus :=
  rewrite ino fun fileExt => writeFile_content fileExt off size buf

end Yfs.YfsClient
