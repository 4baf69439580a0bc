/-
The FUSE handlers (`fuse.cc`): what each request makes of the operations of
`yfs_client`, and what it replies.

`fuse.cc` passes offsets and sizes on as they come from the kernel, `off_t` and
`size_t`, to functions that take `unsigned int`: the conversion is the `% 2 ^ 32` at
each of these calls. `draws` is what `random()` returns to a handler.
-/
import Yfs.YfsClient

set_option autoImplicit false

namespace Yfs.FuseServer

open Text Calls Yfs.Dir Yfs.YfsClient

/-! ## Replies -/

/-- The error numbers the handlers reply with; 0 is a success without a body. -/
inductive errno where
  | success | EEXIST | ENOENT | ENOSYS | ENOTDIR
  deriving DecidableEq, Repr

/-- The fields of `struct stat` that `getattr` fills in. -/
structure stat where
  st_ino : ℕ
  st_mode : ℕ
  st_nlink : ℕ
  st_atime : ℕ
  st_mtime : ℕ
  st_ctime : ℕ
  st_size : ℕ
  deriving DecidableEq, Repr

/-- After `bzero`. -/
def stat.zero : stat := ⟨0, 0, 0, 0, 0, 0, 0⟩

def S_IFREG : ℕ := 0o100000
def S_IFDIR : ℕ := 0o040000

/-- `fuse_entry_param`; its two timeouts and its generation are always 0. -/
structure fuse_entry_param where
  ino : ℕ
  attr : stat
  deriving DecidableEq, Repr

inductive Reply where
  | err (e : errno)
  | attr (st : stat)
  | buf (b : Str)
  | write (count : ℕ)
  | create (e : fuse_entry_param)
  | entry (e : fuse_entry_param)
  /-- `reply_buf_limited` of the entries of a directory. -/
  | dir (dirents : List dirent) (off maxsize : ℕ)
  deriving DecidableEq, Repr

/-! ## Attributes -/

/-- `getattr`: the locals `info` are only read after the call that fills them. -/
def getattr (inum : ℕ) : FsProg (xxstatus × stat) := do
  let st : stat := { stat.zero with st_ino := inum }
  if isfile inum then
    let r ← getfile inum ⟨0, 0, 0, 0⟩
    if r.1 ≠ .OK then return (r.1, st)
    else
      return (.OK, { st with
        st_mode := S_IFREG ||| 0o666, st_nlink := 1, st_atime := r.2.atime,
        st_mtime := r.2.mtime, st_ctime := r.2.ctime, st_size := r.2.size })
  else
    let r ← getdir inum ⟨0, 0, 0⟩
    if r.1 ≠ .OK then return (r.1, st)
    else
      return (.OK, { st with
        st_mode := S_IFDIR ||| 0o777, st_nlink := 2, st_atime := r.2.atime,
        st_mtime := r.2.mtime, st_ctime := r.2.ctime })

def fuseserver_getattr (ino : ℕ) : FsProg Reply := do
  let r ← getattr ino
  return if r.1 ≠ .OK then .err .ENOENT else .attr r.2

/-- `to_set` is whether `FUSE_SET_ATTR_SIZE` is among the attributes to set. -/
def fuseserver_setattr (ino st_size : ℕ) (to_set : Bool) : FsProg Reply :=
  if to_set then do
    let ret ← setSize ino (st_size % 2 ^ 32)
    if ret = .OK then
      -- the status of `getattr` is not looked at
      let r ← getattr ino
      return .attr r.2
    else
      return .err .ENOENT
  else return .err .ENOSYS

/-! ## Files -/

def fuseserver_read (ino size off : ℕ) : FsProg Reply := do
  let r ← readFile ino (off % 2 ^ 32) (size % 2 ^ 32) []
  return if r.1 = .OK then .buf r.2 else .err .ENOENT

/-- `buf` holds at least `size` bytes. -/
def fuseserver_write (ino : ℕ) (buf : Str) (size off : ℕ) : FsProg Reply := do
  let str := buf.take size
  let ret ← writeFile ino (off % 2 ^ 32) (size % 2 ^ 32) str
  return if ret = .OK then .write size else .err .ENOENT

/-! ## Directories -/

/-- `fuseserver_createhelper`, with `ino` its uninitialised local. -/
def fuseserver_createhelper (parent : ℕ) (name : Str) (draws : List ℕ) (ino : ℕ) :
    FsProg (xxstatus × Option fuse_entry_param) := do
  let r ← lookup name parent ino false
  if r.1 = .OK then
    if r.2.1 then
      release parent
      return (.EXIST, none)
    else
      match drawIno draws with
      | none => drawing
      | some drawn =>
        let ret ← addDirent parent (fileIno drawn) name
        if ret = .OK then
          let st ← getattr (fileIno drawn)
          return (.OK, some ⟨fileIno drawn, st.2⟩)
        else
          return (.NOENT, none)
  else
    return (r.1, none)

/-- The reply of `fuseserver_create` and `fuseserver_mknod`, which differ in how they
reply to a success. -/
def createReply (ok : fuse_entry_param → Reply) : xxstatus × Option fuse_entry_param → Reply
  | (.OK, some e) => ok e
  | (.EXIST, _) => .err .EEXIST
  | _ => .err .ENOENT

def fuseserver_create (parent : ℕ) (name : Str) (draws : List ℕ) (ino : ℕ) : FsProg Reply := do
  let r ← fuseserver_createhelper parent name draws ino
  return createReply .create r

def fuseserver_mknod (parent : ℕ) (name : Str) (draws : List ℕ) (ino : ℕ) : FsProg Reply := do
  let r ← fuseserver_createhelper parent name draws ino
  return createReply .entry r

def fuseserver_lookup (parent : ℕ) (name : Str) (childInum : ℕ) : FsProg Reply := do
  let r ← lookup name parent childInum true
  if r.1 ≠ .OK then return .err .ENOENT
  else if r.2.1 then
    let st ← getattr r.2.2
    return .entry ⟨r.2.2, st.2⟩
  else return .err .ENOENT

def fuseserver_readdir (ino size off junk : ℕ) : FsProg Reply :=
  if isdir ino then do
    let r ← readDir ino junk
    return if r.1 = .OK then .dir r.2 off size else .err .ENOENT
  else return .err .ENOTDIR

def fuseserver_mkdir (parent : ℕ) (name : Str) (draws : List ℕ) (ino : ℕ) : FsProg Reply := do
  let r ← lookup name parent ino false
  if r.1 = .OK then
    if r.2.1 then
      release parent
      return .err .EEXIST
    else
      match drawIno draws with
      | none => drawing
      | some drawn =>
        let ret ← addDirent parent (dirIno drawn) name
        if ret = .OK then
          let st ← getattr (dirIno drawn)
          return .entry ⟨dirIno drawn, st.2⟩
        else
          return .err .ENOSYS
  else
    return .err .ENOSYS

/-- What `fuseserver_createhelper` and `fuseserver_mkdir` have in common: they differ in
how a drawn value becomes an inum and in what they reply. -/
def adding {α : Type} (parent : ℕ) (name : Str) (draws : List ℕ) (ino : ℕ) (inumOf : ℕ → ℕ)
    (exist failed : α) (lost : xxstatus → α) (ok : ℕ → xxstatus × stat → α) : FsProg α := do
  let r ← lookup name parent ino false
  if r.1 = .OK then
    if r.2.1 then
      release parent
      return exist
    else
      match drawIno draws with
      | none => drawing
      | some drawn =>
        let ret ← addDirent parent (inumOf drawn) name
        if ret = .OK then
          let st ← getattr (inumOf drawn)
          return ok (inumOf drawn) st
        else
          return failed
  else
    return lost r.1

theorem createhelper_eq (parent : ℕ) (name : Str) (draws : List ℕ) (ino : ℕ) :
    fuseserver_createhelper parent name draws ino
      = adding parent name draws ino fileIno (.EXIST, none) (.NOENT, none) (fun st => (st, none))
          fun inum st => (.OK, some ⟨inum, st.2⟩) := rfl

theorem mkdir_eq (parent : ℕ) (name : Str) (draws : List ℕ) (ino : ℕ) :
    fuseserver_mkdir parent name draws ino
      = adding parent name draws ino dirIno (.err .EEXIST) (.err .ENOSYS) (fun _ => .err .ENOSYS)
          fun inum st => .entry ⟨inum, st.2⟩ := rfl

def fuseserver_unlink (parent : ℕ) (name : Str) (ino : ℕ) : FsProg Reply := do
  let r ← lookup name parent ino false
  if r.1 = .OK then
    if r.2.1 then
      if isfile r.2.2 then
        let ret ← unlink parent r.2.2 name
        return if ret = .OK then .err .success else .err .ENOSYS
      else
        release parent
        return .err .ENOSYS
    else
      release parent
      return .err .ENOENT
  else
    return .err .ENOSYS

/-! ## Requests -/

/-- A request of the kernel, with the uninitialised locals of its handler. -/
inductive Request where
  | getattr (ino : ℕ)
  | setattr (ino st_size : ℕ) (to_set : Bool)
  | read (ino size off : ℕ)
  | write (ino : ℕ) (buf : Str) (size off : ℕ)
  | create (parent : ℕ) (name : Str) (draws : List ℕ) (local_ino : ℕ)
  | mknod (parent : ℕ) (name : Str) (draws : List ℕ) (local_ino : ℕ)
  | lookup (parent : ℕ) (name : Str) (local_ino : ℕ)
  | readdir (ino size off junk : ℕ)
  | mkdir (parent : ℕ) (name : Str) (draws : List ℕ) (local_ino : ℕ)
  | unlink (parent : ℕ) (name : Str) (local_ino : ℕ)
  deriving DecidableEq, Repr

/-- `fuseserver_oper`. -/
def Request.handler : Request → FsProg Reply
  | getattr ino => fuseserver_getattr ino
  | setattr ino st_size to_set => fuseserver_setattr ino st_size to_set
  | read ino size off => fuseserver_read ino size off
  | write ino buf size off => fuseserver_write ino buf size off
  | create parent name draws ino => fuseserver_create parent name draws ino
  | mknod parent name draws ino => fuseserver_mknod parent name draws ino
  | lookup parent name ino => fuseserver_lookup parent name ino
  | readdir ino size off junk => fuseserver_readdir ino size off junk
  | mkdir parent name draws ino => fuseserver_mkdir parent name draws ino
  | unlink parent name ino => fuseserver_unlink parent name ino

end Yfs.FuseServer
