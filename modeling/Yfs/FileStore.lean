/-
The operations of `yfs_client` run on the extents a lock holder sees.

The store holds what a lock holder finds: its own cached copy of an extent, or the
server's. The answers are those of the code (`SharedExtents.serve_store`), and so is what
is left after the calls of one operation, with two exceptions. A `get` or `getattr` of an
extent that is not there fails once; `extent_client` then caches an empty extent. And
`remove` drops the cached copy only, so that a later call finds the server's until the
extent is flushed; in the store it is gone at once.

The locks are those of one client: taking one that the operation holds already would wait
for itself for ever, so it does not return.

Every function of `YfsClient` has one equation here, which says what it replies and
what it leaves in the store. For the functions on directories the equation is in terms
of the functions of `Dir`: the programs and the functions on the text agree.
-/
import Yfs.FuseServer

set_option autoImplicit false

namespace Yfs.FileStore

open Text Calls Calls.Prog Yfs.StringSplit Yfs.YfsClient
open Yfs.Dir (Files xxstatus dirent isfile)

/-! ## The store -/

/-- The extents, and the locks the operation holds. -/
structure World where
  files : Files
  held : List ℕ

/-- What `ec->get` returns. -/
def fetch (files : Files) (eid : ℕ) : Extent.xxstatus × Str :=
  match files eid with
  | some buf => (.OK, buf)
  | none => (.IOERR, [])

theorem fetch_some {files : Files} {eid : ℕ} {buf : Str} (h : files eid = some buf) :
    fetch files eid = (.OK, buf) := by
  rw [fetch, h]

theorem fetch_none {files : Files} {eid : ℕ} (h : files eid = none) :
    fetch files eid = (.IOERR, []) := by
  rw [fetch, h]

/-- What `ec->getattr` returns; `times` are the fields other than the size. -/
def fetchattr (times : ℕ → Extent.attr) (files : Files) (eid : ℕ) :
    Extent.xxstatus × Extent.attr :=
  match files eid with
  | some buf => (.OK, { times eid with size := Extent.unsignedLength buf })
  | none => (.IOERR, times eid)

/-- How the store answers a call. -/
def serve (times : ℕ → Extent.attr) (w : World) : (c : Call) → Option (c.Answer × World)
  | .acquire lid => if lid ∈ w.held then none else some ((), { w with held := lid :: w.held })
  | .release lid => some ((), { w with held := w.held.erase lid })
  | .get eid => some (fetch w.files eid, w)
  | .getattr eid => some (fetchattr times w.files eid, w)
  | .put eid buf =>
    some (Extent.xxstatus.OK, { w with files := Function.update w.files eid (some buf) })
  | .remove eid =>
    some (Extent.xxstatus.OK, { w with files := Function.update w.files eid none })
  | .drawing => none

/-- Run an operation on the store. -/
def perform {α : Type} (times : ℕ → Extent.attr) (p : FsProg α) (w : World) :
    Option (α × World) :=
  p.exec (serve times) w

section Perform

variable {α β : Type} {times : ℕ → Extent.attr} {files : Files} {held : List ℕ}

@[simp] theorem perform_ret (a : α) (w : World) : perform times (ret a) w = some (a, w) := rfl

/-- A program is followed part by part. -/
theorem perform_bind {p : FsProg α} {f : α → FsProg β} {w w' : World} {a : α}
    (h : perform times p w = some (a, w')) :
    perform times (p.bind f) w = perform times (f a) w' :=
  exec_bind_some h

/-- A part that does not return keeps the whole from returning. -/
theorem perform_bind_none {p : FsProg α} {w : World} (f : α → FsProg β)
    (h : perform times p w = none) : perform times (p.bind f) w = none := by
  rw [perform, exec_bind, ← perform, h]
  rfl

/-- A lock that is free is had at once; there is one client here. -/
theorem perform_acquire {lid : ℕ} (h : lid ∉ held) :
    perform times (acquire lid) ⟨files, held⟩ = some ((), ⟨files, lid :: held⟩) :=
  exec_call (e := Call.acquire lid) (if_neg h) ret

/-- An operation that takes a lock it holds waits for itself. -/
theorem perform_acquire_held {lid : ℕ} (h : lid ∈ held) :
    perform times (acquire lid) ⟨files, held⟩ = none := by
  have hserve : serve times ⟨files, held⟩ (.acquire lid) = none := if_pos h
  exact exec_call_none hserve ret

theorem perform_release (lid : ℕ) :
    perform times (release lid) ⟨files, lid :: held⟩ = some ((), ⟨files, held⟩) := by
  have hserve : serve times ⟨files, lid :: held⟩ (.release lid) = some ((), ⟨files, held⟩) := by
    simp only [serve, List.erase_cons_head]
    rfl
  exact exec_call hserve ret

theorem perform_get (eid : ℕ) :
    perform times (ec_get eid) ⟨files, held⟩ = some (fetch files eid, ⟨files, held⟩) := rfl

theorem perform_getattr (eid : ℕ) :
    perform times (ec_getattr eid) ⟨files, held⟩
      = some (fetchattr times files eid, ⟨files, held⟩) := rfl

/-- A function that takes a lock and makes its first call under it. -/
theorem perform_locked {p : FsProg α} {f : α → FsProg β} {lid : ℕ} {a : α}
    (h : lid ∉ held) (hp : perform times p ⟨files, lid :: held⟩ = some (a, ⟨files, lid :: held⟩)) :
    perform times ((acquire lid).bind fun _ => p.bind f) ⟨files, held⟩
      = perform times (f a) ⟨files, lid :: held⟩ := by
  rw [perform_bind (perform_acquire h), perform_bind hp]

/-- Giving back the lock that was taken last, as the end of a function. -/
theorem perform_release_ret (lid : ℕ) (a : α) :
    perform times ((release lid).bind fun _ => ret a) ⟨files, lid :: held⟩
      = some (a, ⟨files, held⟩) := by
  rw [perform_bind (perform_release lid), perform_ret]

/-! ## Files -/

/-- What `rewrite` makes of the store. -/
def rewritten (files : Files) (ino : ℕ) (f : Str → Str) : xxstatus × Files :=
  match files ino with
  | some fileExt => (.OK, Function.update files ino (some (f fileExt)))
  | none => (.NOENT, files)

theorem perform_rewrite_put (ino : ℕ) (f : Str → Str) :
    perform times (rewrite_put ino f (fetch files ino)) ⟨files, held⟩
      = some ((rewritten files ino f).1, ⟨(rewritten files ino f).2, held⟩) := by
  cases hf : files ino with
  | none =>
    simp only [rewritten, hf, fetch_none hf]
    rfl
  | some fileExt =>
    simp only [rewritten, hf, fetch_some hf]
    rfl

/-- `writeFile` and `setSize` replace the content by what is made of it, if there is any. -/
theorem perform_rewrite {ino : ℕ} (h : ino ∉ held) (f : Str → Str) :
    perform times (rewrite ino f) ⟨files, held⟩
      = some ((rewritten files ino f).1, ⟨(rewritten files ino f).2, held⟩) := by
  refine (perform_locked h (perform_get ino)).trans ?_
  refine (perform_bind (perform_rewrite_put ino f)).trans ?_
  exact perform_release_ret ino _

/-- What `readFile` returns. -/
def readBytes (files : Files) (ino off size : ℕ) (buf : Str) : xxstatus × Str :=
  match files ino with
  | some fileExt => (.OK, readFile_content fileExt off size)
  | none => (.NOENT, buf)

/-- Reading changes nothing. -/
theorem perform_readFile {ino : ℕ} (h : ino ∉ held) (off size : ℕ) (buf : Str) :
    perform times (readFile ino off size buf) ⟨files, held⟩
      = some (readBytes files ino off size buf, ⟨files, held⟩) := by
  refine (perform_locked h (perform_get ino)).trans ?_
  refine (perform_release_ret ino _).trans ?_
  cases hf : files ino with
  | none =>
    simp only [readBytes, hf, fetch_none hf]
    rfl
  | some fileExt =>
    simp only [readBytes, hf, fetch_some hf]
    rfl

/-! ## Attributes -/

/-- The attributes are read without a change; what they are does not matter here. -/
theorem perform_getfile (times : ℕ → Extent.attr) (files : Files) {inum : ℕ}
    (h : inum ∉ held) (fin : fileinfo) :
    ∃ r, perform times (getfile inum fin) ⟨files, held⟩ = some (r, ⟨files, held⟩) :=
  ⟨_, (perform_locked h (perform_getattr inum)).trans (perform_release_ret inum _)⟩

theorem perform_getdir (times : ℕ → Extent.attr) (files : Files) {inum : ℕ}
    (h : inum ∉ held) (din : dirinfo) :
    ∃ r, perform times (getdir inum din) ⟨files, held⟩ = some (r, ⟨files, held⟩) :=
  ⟨_, (perform_locked h (perform_getattr inum)).trans (perform_release_ret inum _)⟩

/-- Reading attributes replies something and changes nothing. -/
theorem perform_stat (times : ℕ → Extent.attr) (files : Files) {inum : ℕ} (h : inum ∉ held) :
    ∃ r, perform times (FuseServer.getattr inum) ⟨files, held⟩ = some (r, ⟨files, held⟩) := by
  unfold FuseServer.getattr
  split
  · obtain ⟨r, hr⟩ := perform_getfile times files h ⟨0, 0, 0, 0⟩
    simp only [bind_eq, perform_bind hr]
    split
    · exact ⟨_, rfl⟩
    · exact ⟨_, rfl⟩
  · obtain ⟨r, hr⟩ := perform_getdir times files h ⟨0, 0, 0⟩
    simp only [bind_eq, perform_bind hr]
    split
    · exact ⟨_, rfl⟩
    · exact ⟨_, rfl⟩

/-! ## Directories -/

/-- `lookup` agrees with the function on the text. It keeps the lock when the directory
was read and the caller goes on. -/
theorem perform_lookup {parent : ℕ} (h : parent ∉ held) (name : Str) (child : ℕ)
    (singleOp : Bool) :
    perform times (lookup name parent child singleOp) ⟨files, held⟩
      = some (Dir.lookup files name parent child,
          ⟨files, if files parent ≠ none ∧ singleOp = false then parent :: held else held⟩) := by
  refine (perform_locked h (perform_get parent)).trans ?_
  cases hf : files parent with
  | none =>
    simp only [Dir.lookup, hf, fetch_none hf]
    exact perform_release_ret parent _
  | some parentDirCont =>
    simp only [Dir.lookup, hf, fetch_some hf]
    cases singleOp with
    | true => exact perform_release_ret parent _
    | false => rfl

/-- The programs do to the store what the functions of `Dir` say, so that the results on
directories are about the handlers. -/
theorem perform_lookup_single {parent : ℕ} (h : parent ∉ held) (name : Str) (child : ℕ) :
    perform times (lookup name parent child true) ⟨files, held⟩
      = some (Dir.lookup files name parent child, ⟨files, held⟩) := by
  rw [perform_lookup h, if_neg fun hboth => Bool.noConfusion hboth.2]

/-- What `addDirent` and `unlink` share: a second lock on top of the directory's, and
both given back at the end. -/
theorem perform_second_lock {dirInum fileInum : ℕ} (h : fileInum ∉ dirInum :: held)
    {p : Extent.xxstatus × Str → FsProg xxstatus} {r : xxstatus × Files}
    (hp : perform times (p (fetch files dirInum)) ⟨files, fileInum :: dirInum :: held⟩
      = some (r.1, ⟨r.2, fileInum :: dirInum :: held⟩)) :
    perform times ((acquire fileInum).bind fun _ => (ec_get dirInum).bind fun r =>
        (p r).bind fun a => (release fileInum).bind fun _ => (release dirInum).bind fun _ => ret a)
      ⟨files, dirInum :: held⟩ = some (r.1, ⟨r.2, held⟩) := by
  rw [perform_locked h (perform_get dirInum), perform_bind hp,
    perform_bind (perform_release fileInum), perform_release_ret]

/-- `addDirent` as `Dir` has it, with both locks given back. -/
theorem perform_addDirent {dirInum fileInum : ℕ} (h : fileInum ∉ dirInum :: held) (name : Str) :
    perform times (addDirent dirInum fileInum name) ⟨files, dirInum :: held⟩
      = some ((Dir.addDirent files dirInum fileInum name).1,
          ⟨(Dir.addDirent files dirInum fileInum name).2, held⟩) := by
  refine perform_second_lock h ?_
  cases hf : files dirInum with
  | none =>
    simp only [Dir.addDirent, hf, fetch_none hf]
    rfl
  | some oldExt =>
    simp only [Dir.addDirent, hf, fetch_some hf]
    rfl

/-- `unlink` as `Dir` has it. -/
theorem perform_unlink {dirInum fileInum : ℕ} (h : fileInum ∉ dirInum :: held) (name : Str) :
    perform times (unlink dirInum fileInum name) ⟨files, dirInum :: held⟩
      = some ((Dir.unlink files dirInum fileInum name).1,
          ⟨(Dir.unlink files dirInum fileInum name).2, held⟩) := by
  refine perform_second_lock h ?_
  cases hf : files dirInum with
  | none =>
    simp only [Dir.unlink, hf, fetch_none hf]
    rfl
  | some dirExtent =>
    simp only [Dir.unlink, hf, fetch_some hf]
    rfl

theorem perform_readDir {dirInum : ℕ} (h : dirInum ∉ held) (junk : ℕ) :
    perform times (readDir dirInum junk) ⟨files, held⟩
      = some (Dir.readDir files dirInum junk, ⟨files, held⟩) := by
  refine (perform_locked h (perform_get dirInum)).trans ?_
  refine (perform_release_ret dirInum _).trans ?_
  cases hf : files dirInum with
  | none =>
    simp only [Dir.readDir, hf, fetch_none hf]
    rfl
  | some dirContent =>
    simp only [Dir.readDir, hf, fetch_some hf]
    rfl

end Perform

end Yfs.FileStore
