/-
The extents that the yfs clients share, number by number.

A call of a client is about one number, that of a lock and of the extent it guards, and
a call on one extent reads and writes nothing of another (`ExtentSession.runCall_same`,
`runCall_local`). So what there is of one number can be kept in a `Slot` of its own: who
holds the lock, and what the server and the clients have of the extent.

How the extents answer is left open in `Extents`. `code` answers as the source does: a
call is the operation of `extent_client` on its caches and the server, and the lock
client has the extent flushed (`lock_release_user_impl::dorelease`) before the lock goes
back to the server. Between two calls under one lock nobody else works on the extent, so
a call with its RPCs is one step.

* `run_joined`: taken together, the slots are the maps of the server and of the clients,
  and a call on its slot is the call on these maps.
* `serve_store`: on extents that exist, the answers are those of `FileStore`.
-/
import Yfs.ExtentSession
import Yfs.FileStore
import Yfs.LockDiscipline

set_option autoImplicit false

namespace Yfs.SharedExtents

open Yfs.YfsClient
open Yfs.Extent (Content attr cacheFileEnt extent_client extent_server unsignedLength)
open Yfs.ExtentSession (runCall result Same)
open Yfs.LockDiscipline (slotOf accesses)

/-! ## A slot, with any answers -/

/-- What becomes of an extent, of which there is `σ`, when a client makes a call on it;
`ν` is whatever else the answer depends on, such as the time. -/
structure Extents (σ ν : Type) where
  /-- The client gets the lock. -/
  acquire (client : ℕ) (x : ν) (eid : ℕ) (d : σ) : σ
  /-- The client gives the lock back. -/
  release (client : ℕ) (x : ν) (eid : ℕ) (d : σ) : σ
  get (client : ℕ) (x : ν) (eid : ℕ) (d : σ) : (Extent.xxstatus × Content) × σ
  getattr (client : ℕ) (x : ν) (eid : ℕ) (d : σ) : (Extent.xxstatus × attr) × σ
  put (client : ℕ) (x : ν) (eid : ℕ) (buf : Content) (d : σ) : Extent.xxstatus × σ
  remove (client : ℕ) (x : ν) (eid : ℕ) (d : σ) : Extent.xxstatus × σ

/-- An extent, and who holds its lock. -/
structure Slot (σ : Type) where
  content : σ
  holder : Option ℕ
  deriving DecidableEq, Repr

/-- How a call of a client is answered. A lock that is held is waited for, and so is the
end of the loop over `random()`. -/
def serve {σ ν : Type} (E : Extents σ ν) (client : ℕ) (x : ν) (d : Slot σ) :
    (c : Call) → Option (c.Answer × Slot σ)
  | .acquire lid =>
    if d.holder = none then some ((), ⟨E.acquire client x lid d.content, some client⟩) else none
  | .release lid =>
    if d.holder = some client then some ((), ⟨E.release client x lid d.content, none⟩) else none
  | .get eid =>
    let r := E.get client x eid d.content
    some (r.1, { d with content := r.2 })
  | .getattr eid =>
    let r := E.getattr client x eid d.content
    some (r.1, { d with content := r.2 })
  | .put eid buf =>
    let r := E.put client x eid buf d.content
    some (r.1, { d with content := r.2 })
  | .remove eid =>
    let r := E.remove client x eid d.content
    some (r.1, { d with content := r.2 })
  | .drawing => none

/-- **What a call does to the lock of its slot.** -/
theorem serve_cases {σ ν : Type} {E : Extents σ ν} {client : ℕ} {x : ν} {d : Slot σ} {c : Call}
    {r : c.Answer × Slot σ} (h : serve E client x d c = some r) :
    (∃ lid, c = .acquire lid ∧ d.holder = none ∧ r.2.holder = some client)
      ∨ (∃ lid, c = .release lid ∧ d.holder = some client ∧ r.2.holder = none)
      ∨ (accesses c = true ∧ r.2.holder = d.holder) := by
  cases c with
  | acquire lid =>
    simp only [serve] at h
    split at h
    · next hfree =>
      obtain rfl := Option.some.inj h
      exact .inl ⟨lid, rfl, hfree, rfl⟩
    · cases h
  | release lid =>
    simp only [serve] at h
    split at h
    · next hheld =>
      obtain rfl := Option.some.inj h
      exact .inr (.inl ⟨lid, rfl, hheld, rfl⟩)
    · cases h
  | get eid | getattr eid | put eid buf | remove eid =>
    obtain rfl := Option.some.inj h
    exact .inr (.inr ⟨rfl, rfl⟩)
  | drawing => cases h

/-! ## The answers of the source -/

/-- What there is of one extent. -/
structure Copies where
  /-- The entries of the server's two maps. -/
  file : Option Content
  fileAttr : Option attr
  /-- The entries of the two caches of each client. -/
  caches : ℕ → Option cacheFileEnt × Option attr
  /-- The client whose lock client has the lock, in use or not. -/
  keeper : Option ℕ

/-- What an answer depends on besides: the readings of the clock, the attributes that an
unsuccessful `getattr` sends back, and whether the server has asked for the lock. -/
structure Moment where
  now : ℕ → ℕ
  junk : attr
  revoked : Bool

/-- The time 0, and no revoke. -/
instance : Inhabited Moment := ⟨⟨fun _ => 0, .zero, false⟩⟩

namespace Copies

variable (d : Copies)

/-- An extent that the server stores and nobody caches. -/
def stored (v : Option (Content × attr)) : Copies :=
  ⟨v.map Prod.fst, v.map Prod.snd, fun _ => (none, none), none⟩

/-- The caches of a client, as far as this extent goes. -/
def client (c : ℕ) : extent_client := ⟨fun _ => (d.caches c).1, fun _ => (d.caches c).2⟩

/-- The server, as far as this extent goes. -/
def server : extent_server := ⟨fun _ => d.file, fun _ => d.fileAttr⟩

/-- An operation of client `c` from its start to its result. -/
def run (c : ℕ) (m : Moment) (eid : ℕ) (op : Extent.Op) : Extent.Result × Copies :=
  let r := runCall (d.client c) d.server ⟨eid, op, m.now, m.junk⟩
  (result r.2.2,
    ⟨r.2.1.files eid, r.2.1.fileAttrs eid,
      Function.update d.caches c (r.1.cacheFiles eid, r.1.cacheAttrs eid), d.keeper⟩)

end Copies

/-- What a `get` has returned to its caller. -/
def gotten : Extent.Result → Extent.xxstatus × Content
  | .get ret buf => (ret, buf)
  -- a `get` returns nothing else (`result_get`)
  | _ => (.RPCERR, [])

def gottenattr : Extent.Result → Extent.xxstatus × attr
  | .getattr ret a => (ret, a)
  | _ => (.RPCERR, .zero)

/-- The status a `put` or a `remove` has returned. -/
def status : Extent.Result → Extent.xxstatus
  | .put _ ret => ret
  | .remove ret => ret
  | _ => .RPCERR

/-- The lock client and the extent client of the source. -/
def code : Extents Copies Moment where
  acquire client m eid d :=
    match d.keeper with
    | none => { d with keeper := some client }
    | some k =>
      -- a lock that is not in use goes back when the server asks for it (`revoke_handler`)
      if k = client ∧ m.revoked = false then d
      else { (d.run k m eid .flush).2 with keeper := some client }
  release client m eid d :=
    -- if the server has asked for it, the lock goes back at once (`release`)
    if m.revoked then { (d.run client m eid .flush).2 with keeper := none } else d
  get client m eid d :=
    let r := d.run client m eid .get
    (gotten r.1, r.2)
  getattr client m eid d :=
    let r := d.run client m eid .getattr
    (gottenattr r.1, r.2)
  put client m eid buf d :=
    let r := d.run client m eid (.put buf)
    (status r.1, r.2)
  remove client m eid d :=
    let r := d.run client m eid .remove
    (status r.1, r.2)

/-! ## The slots together -/

section Joined

variable (slots : ℕ → Copies)

/-- The server's maps, put together from the slots. -/
def server : extent_server := ⟨fun i => (slots i).file, fun i => (slots i).fileAttr⟩

/-- The caches of client `c`. -/
def client (c : ℕ) : extent_client :=
  ⟨fun i => ((slots i).caches c).1, fun i => ((slots i).caches c).2⟩

variable {slots}

/-- **A call on its slot is the call on the whole maps**, and it leaves the other clients'
caches alone. -/
theorem run_joined (c : ℕ) (m : Moment) (eid : ℕ) (op : Extent.Op) :
    let r := (slots eid).run c m eid op
    let slots' := Function.update slots eid r.2
    runCall (client slots c) (server slots) ⟨eid, op, m.now, m.junk⟩
        = (client slots' c, server slots', .done r.1)
      ∧ ∀ c', c' ≠ c → client slots' c' = client slots c' := by
  intro r slots'
  let a : ExtentSession.Call := ⟨eid, op, m.now, m.junk⟩
  have hat : slots' eid = r.2 := Function.update_self ..
  have hoff : ∀ i, i ≠ eid → slots' i = slots i := fun i hi => Function.update_of_ne hi ..
  have hcaches : ∀ c', c' ≠ c → r.2.caches c' = (slots eid).caches c' :=
    fun c' hc' => Function.update_of_ne hc' ..
  -- under the number of the call both sides find the same
  obtain ⟨hpc, hhere⟩ := ExtentSession.runCall_local (a := a)
    (show Same eid ((slots eid).client c) (client slots c) (slots eid).server (server slots) from
      ⟨rfl, rfl, rfl, rfl⟩)
  have hsame : ∀ i, Same i (client slots' c) (runCall (client slots c) (server slots) a).1
      (server slots') (runCall (client slots c) (server slots) a).2.1 := by
    intro i
    by_cases hi : i = eid
    · subst hi
      have hown := (congrArg (fun d => d.caches c) hat).trans (Function.update_self ..)
      exact ⟨hhere.cacheFiles.trans (congrArg Prod.fst hown).symm,
        hhere.cacheAttrs.trans (congrArg Prod.snd hown).symm,
        hhere.files.trans (congrArg Copies.file hat).symm,
        hhere.fileAttrs.trans (congrArg Copies.fileAttr hat).symm⟩
    · have haway := ExtentSession.runCall_same (c := client slots c) (s := server slots) a hi
      exact ⟨haway.cacheFiles.trans (congrArg (fun d => (d.caches c).1) (hoff i hi)).symm,
        haway.cacheAttrs.trans (congrArg (fun d => (d.caches c).2) (hoff i hi)).symm,
        haway.files.trans (congrArg Copies.file (hoff i hi)).symm,
        haway.fileAttrs.trans (congrArg Copies.fileAttr (hoff i hi)).symm⟩
  obtain ⟨hclient, hserver⟩ := ExtentSession.eq_of_same hsame
  refine ⟨Prod.ext hclient (Prod.ext hserver ?_), fun c' hc' => ?_⟩
  · obtain ⟨res, hres⟩ :=
      ExtentSession.runCall_done ((slots eid).client c) (slots eid).server a
    have hr : r.1 = res := congrArg result hres
    rw [hr]
    exact hpc.trans hres
  · have hentries : ∀ i, (slots' i).caches c' = (slots i).caches c' := by
      intro i
      by_cases hi : i = eid
      · rw [hi, hat, hcaches c' hc']
      · rw [hoff i hi]
    ext1
    · exact funext fun i => congrArg Prod.fst (hentries i)
    · exact funext fun i => congrArg Prod.snd (hentries i)

end Joined

/-! ## The store of a lock holder -/

/-- What a client finds under `eid` when it holds the lock, as content: its own copy or
the server's, each with attributes of the right length, or nothing anywhere. -/
inductive Shows (c : extent_client) (s : extent_server) (eid : ℕ) : Option Content → Prop where
  | cached {f : cacheFileEnt} {x : attr} (hf : c.cacheFiles eid = some f)
      (hx : c.cacheAttrs eid = some x) (hsize : x.size = unsignedLength f.fileExt) :
      Shows c s eid (some f.fileExt)
  | stored {buf : Content} {y : attr} (hf : c.cacheFiles eid = none)
      (hx : ∀ x, c.cacheAttrs eid = some x → x.size = unsignedLength buf)
      (hfile : s.files eid = some buf) (hattr : s.fileAttrs eid = some y)
      (hsize : y.size = unsignedLength buf) : Shows c s eid (some buf)
  | missing (hf : c.cacheFiles eid = none) (hx : c.cacheAttrs eid = none)
      (hfile : s.files eid = none) (hattr : s.fileAttrs eid = none) : Shows c s eid none

section Store

variable {c c' : extent_client} {s s' : extent_server} {eid : ℕ} {v : Option Content}
  {a : ExtentSession.Call}

theorem Shows.same (h : Shows c s eid v) (hsame : Same eid c c' s s') : Shows c' s' eid v := by
  cases h with
  | cached hf hx hsize =>
    exact .cached (hsame.cacheFiles.trans hf) (hsame.cacheAttrs.trans hx) hsize
  | stored hf hx hfile hattr hsize =>
    exact .stored (hsame.cacheFiles.trans hf) (fun x hx' => hx x (hsame.cacheAttrs.symm.trans hx'))
      (hsame.files.trans hfile) (hsame.fileAttrs.trans hattr) hsize
  | missing hf hx hfile hattr =>
    exact .missing (hsame.cacheFiles.trans hf) (hsame.cacheAttrs.trans hx)
      (hsame.files.trans hfile) (hsame.fileAttrs.trans hattr)

/-- A `get` returns what the client finds, and an extent that is there is found again. -/
theorem Shows.get (h : Shows c s a.eid v) (hop : a.op = .get) :
    gotten (result (runCall c s a).2.2) = FileStore.fetch (fun _ => v) a.eid
      ∧ (v ≠ none → Shows (runCall c s a).1 (runCall c s a).2.1 a.eid v) := by
  cases h with
  | @cached f x hf hx hsize =>
    rw [ExtentSession.runCall_get_hit hop hf]
    refine ⟨rfl, fun _ => .cached (f := f) hf (ExtentSession.setAttr_cacheAttrs ..) ?_⟩
    rw [extent_client.attrAt, hx]
    exact hsize
  | @stored buf y hf hx hfile hattr hsize =>
    have hget : s.get a.eid (a.now 1) = (⟨s.files, Function.update s.fileAttrs a.eid
        (some { y with atime := a.now 1 })⟩, .OK, buf) := by
      rw [ExtentSession.get_some hfile, extent_server.attrAt, hattr, Option.getD_some]
    have hgetattr : (s.get a.eid (a.now 1)).1.getattr a.eid a.junk
        = (.OK, { y with atime := a.now 1 }) := by
      rw [hget]
      exact ExtentSession.getattr_some (Function.update_self ..) _
    rw [ExtentSession.runCall_get_miss hop hf, hgetattr, hget]
    refine ⟨rfl, fun _ => .cached (f := ⟨buf, false⟩) ?_
      (ExtentSession.setAttr_cacheAttrs ..) hsize⟩
    exact ExtentSession.setFile_cacheFiles ..
  | missing hf hx hfile hattr =>
    rw [ExtentSession.runCall_get_miss hop hf, ExtentSession.get_none hfile,
      ExtentSession.getattr_none hattr]
    exact ⟨rfl, fun hne => absurd rfl hne⟩

theorem fetchattr_of_size {x : attr} {buf : Content} (h : x.size = unsignedLength buf) (eid : ℕ) :
    FileStore.fetchattr (fun _ => x) (fun _ => some buf) eid = (.OK, x) := by
  show (Extent.xxstatus.OK, ({ x with size := unsignedLength buf } : attr)) = (.OK, x)
  rw [← h]

/-- A `getattr` returns the length of what the client finds. -/
theorem Shows.getattr (h : Shows c s a.eid v) (hop : a.op = .getattr) :
    (∃ times, gottenattr (result (runCall c s a).2.2)
        = FileStore.fetchattr (fun _ => times) (fun _ => v) a.eid)
      ∧ (v ≠ none → Shows (runCall c s a).1 (runCall c s a).2.1 a.eid v) := by
  cases h with
  | @cached f x hf hx hsize =>
    rw [ExtentSession.runCall_getattr_hit hop hx]
    exact ⟨⟨x, (fetchattr_of_size hsize _).symm⟩, fun _ => .cached hf hx hsize⟩
  | @stored buf y hf hx hfile hattr hsize =>
    cases hca : c.cacheAttrs a.eid with
    | some x =>
      rw [ExtentSession.runCall_getattr_hit hop hca]
      exact ⟨⟨x, (fetchattr_of_size (hx x hca) _).symm⟩,
        fun _ => .stored hf hx hfile hattr hsize⟩
    | none =>
      rw [ExtentSession.runCall_getattr_miss hop hca, ExtentSession.getattr_some hattr]
      refine ⟨⟨y, (fetchattr_of_size hsize _).symm⟩,
        fun _ => .stored hf (fun x hx' => ?_) hfile hattr hsize⟩
      rw [ExtentSession.setAttr_cacheAttrs] at hx'
      rw [← Option.some.inj hx', hsize]
  | missing hf hx hfile hattr =>
    rw [ExtentSession.runCall_getattr_miss hop hx, ExtentSession.getattr_none hattr]
    exact ⟨⟨a.junk, rfl⟩, fun hne => absurd rfl hne⟩

/-- After a `put` the client finds what it has put. -/
theorem shows_put (c : extent_client) (s : extent_server) {buf : Content}
    (hop : a.op = .put buf) :
    status (result (runCall c s a).2.2) = .OK
      ∧ Shows (runCall c s a).1 (runCall c s a).2.1 a.eid (some buf) := by
  obtain ⟨x, hsize, hx⟩ := ExtentSession.runCall_put c s hop
  rw [hx]
  exact ⟨rfl, .cached (f := ⟨buf, true⟩) (ExtentSession.setFile_cacheFiles ..)
    (ExtentSession.setAttr_cacheAttrs ..) hsize⟩

/-- After a `remove` the client finds nothing of an extent that only its caches had. -/
theorem shows_remove (c : extent_client) (s : extent_server) (hop : a.op = .remove) :
    status (result (runCall c s a).2.2) = .OK
      ∧ (s.files a.eid = none → s.fileAttrs a.eid = none →
        Shows (runCall c s a).1 (runCall c s a).2.1 a.eid none) := by
  rw [ExtentSession.runCall_remove hop]
  exact ⟨rfl, .missing (ExtentSession.erase_cacheFiles ..) (ExtentSession.erase_cacheAttrs ..)⟩

/-- The calls after which the store is still what the client finds. A failed `get` or
`getattr` leaves an empty extent in the cache, and a `remove` drops the cached copy only:
until the flush the server's copy shows again. -/
def Kept (files : Dir.Files) (d : Copies) : Call → Prop
  | .get eid => files eid ≠ none
  | .getattr eid => files eid ≠ none
  | .remove _ => d.file = none ∧ d.fileAttr = none
  | _ => True

/-- The extents that a call is not about show what they have shown. -/
theorem shows_other {slots : ℕ → Copies} {i : ℕ} {files : Dir.Files}
    (h : ∀ eid, Shows (client slots i) (server slots) eid (files eid)) (m : Moment) {eid : ℕ}
    {op : Extent.Op} {v : Option Content}
    (hown : Shows (client (Function.update slots eid ((slots eid).run i m eid op).2) i)
      (server (Function.update slots eid ((slots eid).run i m eid op).2)) eid v) (j : ℕ) :
    Shows (client (Function.update slots eid ((slots eid).run i m eid op).2) i)
      (server (Function.update slots eid ((slots eid).run i m eid op).2)) j
      (Function.update files eid v j) := by
  by_cases hj : j = eid
  · rw [hj, Function.update_self]
    exact hown
  · rw [Function.update_of_ne hj]
    refine (h j).same ?_
    have hsame := ExtentSession.runCall_same (c := client slots i) (s := server slots)
      ⟨eid, op, m.now, m.junk⟩ hj
    rw [(run_joined i m eid op).1] at hsame
    exact hsame

/-- **The code answers like the store** that holds what the client finds, and unless the
call is one that the cache records differently, the client then finds what the store
then holds. -/
theorem serve_store {slots : ℕ → Copies} {i : ℕ} {w : FileStore.World}
    (h : ∀ eid, Shows (client slots i) (server slots) eid (w.files eid)) {e : Call}
    (hacc : accesses e = true) (m : Moment) (holder : Option ℕ) :
    ∃ times r w', serve code i m ⟨slots (slotOf e), holder⟩ e = some r
      ∧ FileStore.serve times w e = some (r.1, w')
      ∧ (Kept w.files (slots (slotOf e)) e → ∀ eid,
        Shows (client (Function.update slots (slotOf e) r.2.content) i)
          (server (Function.update slots (slotOf e) r.2.content)) eid (w'.files eid)) := by
  have hjoin := fun eid op => (@run_joined slots i m eid op).1
  cases e with
  | get eid =>
    have hget := (h eid).get (a := ⟨eid, .get, m.now, m.junk⟩) rfl
    rw [hjoin] at hget
    refine ⟨fun _ => .zero, _, w, rfl, congrArg (fun x => some (x, w)) ?_, fun hkept j => ?_⟩
    · exact hget.1.symm
    · rw [← Function.update_eq_self eid w.files]
      exact shows_other h m (hget.2 hkept) j
  | getattr eid =>
    obtain ⟨⟨times, hattr⟩, hshows⟩ := (h eid).getattr (a := ⟨eid, .getattr, m.now, m.junk⟩) rfl
    rw [hjoin] at hattr hshows
    refine ⟨fun _ => times, _, w, rfl, congrArg (fun x => some (x, w)) ?_, fun hkept j => ?_⟩
    · exact hattr.symm
    · rw [← Function.update_eq_self eid w.files]
      exact shows_other h m (hshows hkept) j
  | put eid buf =>
    obtain ⟨hok, hshows⟩ := shows_put (client slots i) (server slots)
      (a := ⟨eid, .put buf, m.now, m.junk⟩) rfl
    rw [hjoin] at hok hshows
    refine ⟨fun _ => .zero, _, _, rfl, congrArg (fun x => some (x, _)) ?_, fun _ j => ?_⟩
    · exact hok.symm
    · exact shows_other h m hshows j
  | remove eid =>
    obtain ⟨hok, hshows⟩ := shows_remove (client slots i) (server slots)
      (a := ⟨eid, .remove, m.now, m.junk⟩) rfl
    rw [hjoin] at hok hshows
    refine ⟨fun _ => .zero, _, _, rfl, congrArg (fun x => some (x, _)) ?_, fun hkept j => ?_⟩
    · exact hok.symm
    · exact shows_other h m (hshows hkept.1 hkept.2) j
  | acquire lid | release lid | drawing => cases hacc

end Store

end Yfs.SharedExtents
