/-
The extent service: `extent_server` and the caching `extent_client`
(`extent_server.cc`, `extent_client.cc`).

Both sides keep the content of an extent and its attributes in two separate maps.
A `std::map` is a function to `Option`; `m[k].f = x` on a missing key creates the
entry first, with all fields zero.

A client operation is cut where the source drops `mutexFile` to make an RPC: `enter`
is its first critical section, `resume` one RPC at the server or the critical section
that follows it. `Pc` says what is left to do, with the local variables that are still
needed. The attributes an unsuccessful `getattr` sends back are uninitialised memory
in the source; they are the parameter `junk` here.
-/
import Mathlib.Algebra.Group.Nat.Defs
import Mathlib.Logic.Function.Basic
import Mathlib.Data.Nat.Notation

set_option autoImplicit false

namespace Yfs.Extent

/-- The content of an extent. -/
abbrev Content := List Char

/-- `extent_protocol::xxstatus`. -/
inductive xxstatus where
  | OK | RPCERR | NOENT | IOERR
  deriving DecidableEq, Repr

/-- `extent_protocol::attr`. -/
structure attr where
  atime : ℕ
  mtime : ℕ
  ctime : ℕ
  size : ℕ
  deriving DecidableEq, Repr

/-- The entry `operator[]` creates. -/
def attr.zero : attr := ⟨0, 0, 0, 0⟩

/-- A length stored in an `unsigned int`. -/
def unsignedLength (buf : Content) : ℕ := buf.length % 2 ^ 32

/-! ## The server -/

@[ext]
structure extent_server where
  files : ℕ → Option Content
  fileAttrs : ℕ → Option attr

namespace extent_server

/-- The constructor: the root directory exists and is empty. -/
def new (now : ℕ) : extent_server :=
  ⟨Function.update (fun _ => none) 1 (some []),
    Function.update (fun _ => none) 1 (some ⟨now, now, now, 0⟩)⟩

/-- `fileAttrs[id]`. -/
def attrAt (s : extent_server) (id : ℕ) : attr := (s.fileAttrs id).getD .zero

def put (s : extent_server) (id : ℕ) (buf : Content) (now : ℕ) : extent_server :=
  let a := s.attrAt id
  -- a new extent gets all three times, an old one keeps its access time
  let a := if s.files id = none then { a with atime := now, ctime := now, mtime := now }
    else { a with ctime := now, mtime := now }
  ⟨Function.update s.files id (some buf),
    Function.update s.fileAttrs id (some { a with size := unsignedLength buf })⟩

/-- The reply string of a failed `get` is empty. -/
def get (s : extent_server) (id : ℕ) (now : ℕ) : extent_server × xxstatus × Content :=
  match s.files id with
  | some buf =>
    ({ s with fileAttrs :=
        Function.update s.fileAttrs id (some { s.attrAt id with atime := now }) }, .OK, buf)
  | none => (s, .NOENT, [])

def getattr (s : extent_server) (id : ℕ) (junk : attr) : xxstatus × attr :=
  match s.fileAttrs id with
  | some a => (.OK, a)
  | none => (.IOERR, junk)

def remove (s : extent_server) (id : ℕ) : extent_server × xxstatus :=
  match s.files id with
  | none => (s, .NOENT)
  | some _ =>
    let files := Function.update s.files id none
    match s.fileAttrs id with
    | some _ => (⟨files, Function.update s.fileAttrs id none⟩, .OK)
    -- the content is gone by now, although the answer is `NOENT`
    | none => (⟨files, s.fileAttrs⟩, .NOENT)

end extent_server

/-! ## The client -/

structure cacheFileEnt where
  fileExt : Content
  dirty : Bool
  deriving DecidableEq, Repr

@[ext]
structure extent_client where
  cacheFiles : ℕ → Option cacheFileEnt
  cacheAttrs : ℕ → Option attr

namespace extent_client

def new : extent_client := ⟨fun _ => none, fun _ => none⟩

/-- `cacheAttrs[eid]`. -/
def attrAt (c : extent_client) (eid : ℕ) : attr := (c.cacheAttrs eid).getD .zero

def setAttr (c : extent_client) (eid : ℕ) (a : attr) : extent_client :=
  { c with cacheAttrs := Function.update c.cacheAttrs eid (some a) }

def setFile (c : extent_client) (eid : ℕ) (f : cacheFileEnt) : extent_client :=
  { c with cacheFiles := Function.update c.cacheFiles eid (some f) }

/-- `cacheFiles.erase(eid); cacheAttrs.erase(eid)`. -/
def erase (c : extent_client) (eid : ℕ) : extent_client :=
  ⟨Function.update c.cacheFiles eid none, Function.update c.cacheAttrs eid none⟩

end extent_client

/-- The operations a caller may start. -/
inductive Op where
  | get
  | getattr
  | put (buf : Content)
  | remove
  | flush
  deriving DecidableEq, Repr

/-- What an operation returns to its caller. -/
inductive Result where
  | get (ret : xxstatus) (buf : Content)
  | getattr (ret : xxstatus) (a : attr)
  | put (buf : Content) (ret : xxstatus)
  | remove (ret : xxstatus)
  | flush
  deriving DecidableEq, Repr

/-- Where an operation stands. -/
inductive Pc where
  | get_call
  | get_callattr (buf : Content)
  | get_fill (ret : xxstatus) (buf : Content) (a : attr)
  | getattr_call
  | getattr_fill (ret : xxstatus) (a : attr)
  | put_call (buf : Content)
  | put_fill (buf : Content) (ret : xxstatus) (a : attr)
  | flush_put (buf : Content)
  | flush_remove
  | done (r : Result)
  deriving DecidableEq, Repr

/-- The first critical section of an operation. -/
def enter (c : extent_client) (eid : ℕ) (now : ℕ) : Op → extent_client × Pc
  | .get =>
    match c.cacheFiles eid with
    | some f => (c.setAttr eid { c.attrAt eid with atime := now }, .done (.get .OK f.fileExt))
    | none => (c, .get_call)
  | .getattr =>
    match c.cacheAttrs eid with
    | some a => (c, .done (.getattr .OK a))
    | none => (c, .getattr_call)
  | .put buf =>
    -- the content is written before the attributes are looked for
    let c := c.setFile eid ⟨buf, true⟩
    match c.cacheAttrs eid with
    | some a =>
      (c.setAttr eid { a with ctime := now, mtime := now, size := unsignedLength buf },
        .done (.put buf .OK))
    | none => (c, .put_call buf)
  | .remove => (c.erase eid, .done (.remove .OK))
  | .flush =>
    match c.cacheFiles eid with
    -- a clean copy is dropped without telling the server
    | some f => (c.erase eid, if f.dirty then .flush_put f.fileExt else .done .flush)
    | none =>
      match c.cacheAttrs eid with
      | some _ => ({ c with cacheAttrs := Function.update c.cacheAttrs eid none }, .done .flush)
      -- an extent the cache knows nothing of is taken for a removed one
      | none => (c, .flush_remove)

/-- The next RPC, or the critical section after the last one. -/
def resume (c : extent_client) (s : extent_server) (eid : ℕ) (now : ℕ) (junk : attr) :
    Pc → extent_client × extent_server × Pc
  | .get_call =>
    -- the status of this call is overwritten by the one that follows
    let r := s.get eid now
    (c, r.1, .get_callattr r.2.2)
  | .get_callattr buf =>
    let r := s.getattr eid junk
    (c, s, .get_fill r.1 buf r.2)
  | .get_fill ret buf a =>
    ((c.setFile eid ⟨buf, false⟩).setAttr eid a, s, .done (.get ret buf))
  | .getattr_call =>
    let r := s.getattr eid junk
    (c, s, .getattr_fill r.1 r.2)
  | .getattr_fill ret a => (c.setAttr eid a, s, .done (.getattr ret a))
  | .put_call buf =>
    let r := s.getattr eid junk
    (c, s, .put_fill buf r.1 r.2)
  | .put_fill buf ret a =>
    -- of the reply only the access time is used, and only if there is one
    let atime := if ret = .OK then a.atime else now
    (c.setAttr eid ⟨atime, now, now, unsignedLength buf⟩, s, .done (.put buf .OK))
  | .flush_put buf => (c, s.put eid buf now, .done .flush)
  | .flush_remove => (c, (s.remove eid).1, .done .flush)
  | .done r => (c, s, .done r)

end Yfs.Extent
