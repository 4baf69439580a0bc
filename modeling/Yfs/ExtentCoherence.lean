/-
Coherence of the extent caches: any number of `extent_client`s over one
`extent_server`, with every extent guarded by its lock.

The lock of an extent is held by one client at a time, and operations on that extent
are made one after the other under it. Operations on different extents interleave
freely, also inside one client, at every point where the client drops its mutex.
Before the lock moves the holder flushes the extent, and it has accessed the extent
before it flushes it: `flush` of an extent the cache does not know sends a `remove`.

Everything an operation on extent `eid` reads or writes is the slice of the state at
`eid`: the server's two entries and each client's two entries. The invariant is
stated of a slice, so that operations on other extents leave it alone by definition.
-/
import Yfs.Extent
import Yfs.Steps

set_option autoImplicit false

namespace Yfs.ExtentCoherence

open Yfs.Extent

/-! ## The system -/

/-- One hold of a lock, from its arrival at the client to its departure. -/
structure Hold where
  client : ℕ
  /-- There was an access since the lock arrived, or since the last flush. -/
  accessed : Bool
  flushed : Bool
  /-- The operation on the extent that is under way. -/
  pc : Option Pc
  deriving DecidableEq, Repr

/-- A completed operation. -/
structure Event where
  client : ℕ
  eid : ℕ
  result : Result
  deriving DecidableEq, Repr

structure System where
  clients : ℕ → extent_client
  server : extent_server
  holds : ℕ → Option Hold
  /-- The completed operations, oldest first. -/
  log : List Event

/-- What a completed operation makes of the content of its extent. -/
def written : Result → Option Content → Option Content
  | .put buf _, _ => some buf
  | _, v => v

/-- The content of the most recent `put` of each extent, or its initial content. -/
def content (files : ℕ → Option Content) (log : List Event) : ℕ → Option Content :=
  log.foldl (fun f e => Function.update f e.eid (written e.result (f e.eid))) files

inductive Act where
  /-- The lock of `eid` arrives at client `c`. -/
  | acquire (c eid : ℕ)
  /-- The holder starts an operation. -/
  | call (eid : ℕ) (op : Op) (now : ℕ)
  /-- The operation under way goes on. -/
  | resume (eid : ℕ) (now : ℕ) (junk : attr)
  /-- The lock leaves the client. -/
  | release (eid : ℕ)

/-- Where a step of an operation leaves the hold and the log. -/
def settle (s : System) (h : Hold) (eid : ℕ) (c : extent_client) (server : extent_server)
    (pc : Pc) : System :=
  let clients := Function.update s.clients h.client c
  match pc with
  | .done r =>
    ⟨clients, server, Function.update s.holds eid (some { h with pc := none }),
      s.log ++ [⟨h.client, eid, r⟩]⟩
  | pc => ⟨clients, server, Function.update s.holds eid (some { h with pc := some pc }), s.log⟩

/-- May the holder start this operation? `get` and `getattr` are for extents that
exist. -/
def allowed (h : Hold) (v : Option Content) : Op → Bool
  | .get => v.isSome
  | .getattr => v.isSome
  | .put _ => true
  | .remove => false
  | .flush => h.accessed

/-- The hold once an operation has started. -/
def Hold.start (h : Hold) : Op → Hold
  | .flush => { h with accessed := false, flushed := true }
  | _ => { h with accessed := true }

/-- One step; `files` is the store's initial content. -/
def step (files : ℕ → Option Content) (s : System) : Act → Option System
  | .acquire c eid =>
    match s.holds eid with
    | none => some { s with holds := Function.update s.holds eid (some ⟨c, false, false, none⟩) }
    | some _ => none
  | .call eid op now =>
    match s.holds eid with
    | some h =>
      -- the callers' part: one operation at a time under the lock
      if h.pc = none ∧ allowed h (content files s.log eid) op = true then
        let r := enter (s.clients h.client) eid now op
        some (settle s (h.start op) eid r.1 s.server r.2)
      else none
    | none => none
  | .resume eid now junk =>
    match s.holds eid with
    | some h =>
      match h.pc with
      | some pc =>
        let r := resume (s.clients h.client) s.server eid now junk pc
        some (settle s h eid r.1 r.2.1 r.2.2)
      | none => none
    | none => none
  | .release eid =>
    match s.holds eid with
    | some h =>
      -- the lock leaves after a flush that no access has followed
      if h.pc = none ∧ h.accessed = false ∧ h.flushed = true then
        some { s with holds := Function.update s.holds eid none }
      else none
    | none => none

/-- Every extent the server stores has attributes with its length. -/
def Consistent (server : extent_server) : Prop :=
  ∀ eid buf, server.files eid = some buf →
    ∃ a, server.fileAttrs eid = some a ∧ a.size = unsignedLength buf

/-- All caches empty, no lock held. -/
def System.init (server : extent_server) : System :=
  ⟨fun _ => .new, server, fun _ => none, []⟩

theorem consistent_new (now : ℕ) : Consistent (extent_server.new now) := by
  intro eid buf h
  simp only [extent_server.new] at h ⊢
  by_cases he : eid = 1
  · subst he
    rw [Function.update_self, Option.some.injEq] at h
    exact ⟨_, Function.update_self .., by rw [← h]; rfl⟩
  · rw [Function.update_of_ne he] at h
    cases h

/-! ## The reference content -/

theorem content_append (files : ℕ → Option Content) (log : List Event) (e : Event) :
    content files (log ++ [e])
      = Function.update (content files log) e.eid
          (written e.result (content files log e.eid)) := by
  unfold content
  rw [List.foldl_append]
  rfl

/-! ## What holds of the slice at one extent -/

/-- The server stores content `v`, with its length. -/
def Stored (f : Option Content) (fa : Option attr) (v : Option Content) : Prop :=
  f = v ∧ ∀ buf, v = some buf → ∃ a, fa = some a ∧ a.size = unsignedLength buf

/-- The client's two entries after an access: the attributes are there and have the
right length; the content is absent, clean or dirty, and unless it is dirty the
server has it too. -/
def Cached (cf : Option cacheFileEnt) (ca : Option attr) (f : Option Content)
    (fa : Option attr) (v : Option Content) : Prop :=
  ∃ buf, v = some buf ∧ (∃ a, ca = some a ∧ a.size = unsignedLength buf) ∧
    (cf = some ⟨buf, true⟩ ∨ ((cf = none ∨ cf = some ⟨buf, false⟩) ∧ Stored f fa v))

/-- The holder's entries and the server's while an operation is under way. -/
def Underway (cf : Option cacheFileEnt) (ca : Option attr) (f : Option Content)
    (fa : Option attr) (v : Option Content) : Pc → Prop
  | .get_call => cf = none ∧ v ≠ none ∧ Stored f fa v
  | .get_callattr buf => cf = none ∧ v = some buf ∧ Stored f fa v
  | .get_fill ret buf a =>
    v = some buf ∧ Stored f fa v ∧ ret = .OK ∧ a.size = unsignedLength buf
  | .getattr_call => cf = none ∧ v ≠ none ∧ Stored f fa v
  | .getattr_fill ret a =>
    cf = none ∧ ret = .OK ∧ Stored f fa v ∧ ∃ buf, v = some buf ∧ a.size = unsignedLength buf
  -- dirty already: nothing the server answers matters
  | .put_call buf => cf = some ⟨buf, true⟩
  | .put_fill buf _ _ => cf = some ⟨buf, true⟩
  | .flush_put buf => cf = none ∧ ca = none ∧ v = some buf
  -- a flush follows an access, so the branch that removes is not reached
  | .flush_remove => False
  | .done _ => False

/-- The operation under way is a flush. -/
def flushing : Pc → Bool
  | .flush_put _ => true
  | .flush_remove => true
  | _ => false

/-- The holder's entries and the server's between two operations. -/
def Quiet (accessed : Bool) (cf : Option cacheFileEnt) (ca : Option attr) (f : Option Content)
    (fa : Option attr) (v : Option Content) : Prop :=
  if accessed then Cached cf ca f fa v else cf = none ∧ ca = none ∧ Stored f fa v

/-- The holder's entries and the server's, by where the hold stands. -/
def Holding (h : Hold) (cf : Option cacheFileEnt) (ca : Option attr) (f : Option Content)
    (fa : Option attr) (v : Option Content) : Prop :=
  match h.pc with
  | some pc => h.accessed = !flushing pc ∧ Underway cf ca f fa v pc
  | none => Quiet h.accessed cf ca f fa v

/-- The slice at one extent: nobody but the holder caches anything. -/
def SliceOk (hold : Option Hold) (cf : ℕ → Option cacheFileEnt) (ca : ℕ → Option attr)
    (f : Option Content) (fa : Option attr) (v : Option Content) : Prop :=
  match hold with
  | none => (∀ c, cf c = none ∧ ca c = none) ∧ Stored f fa v
  | some h => (∀ c, c ≠ h.client → cf c = none ∧ ca c = none) ∧
      Holding h (cf h.client) (ca h.client) f fa v

/-- The invariant: every slice is in order. -/
def Inv (files : ℕ → Option Content) (s : System) : Prop :=
  ∀ eid, SliceOk (s.holds eid) (fun c => (s.clients c).cacheFiles eid)
    (fun c => (s.clients c).cacheAttrs eid) (s.server.files eid) (s.server.fileAttrs eid)
    (content files s.log eid)

variable {server : extent_server}

theorem inv_init (h : Consistent server) : Inv server.files (System.init server) := by
  intro eid
  exact ⟨fun c => ⟨rfl, rfl⟩, rfl, fun buf hbuf => h eid buf hbuf⟩

/-! ## One step of an operation -/

/-- What a completed operation may have returned when the content was `v`; only a
flush clears the mark of an access. -/
def ResultOk (accessed : Bool) (v : Option Content) : Result → Prop
  | .get ret buf => ret = .OK ∧ v = some buf
  | .getattr ret a => ret = .OK ∧ ∃ buf, v = some buf ∧ a.size = unsignedLength buf
  | .put _ ret => ret = .OK
  | .remove _ => False
  | .flush => accessed = false

/-- What a step of an operation has to establish: the next point is in order, or the
operation is done, its result is right and the hold is in order again. -/
def Outcome (accessed : Bool) (cf : Option cacheFileEnt) (ca : Option attr) (f : Option Content)
    (fa : Option attr) (v : Option Content) : Pc → Prop
  | .done r => ResultOk accessed v r ∧ Quiet accessed cf ca f fa (written r v)
  | pc => accessed = !flushing pc ∧ Underway cf ca f fa v pc

section Enter

variable {c : extent_client} {accessed : Bool} {eid : ℕ} {f v : Option Content} {fa : Option attr}

/-- With no content cached the server has it. -/
theorem Quiet.stored (hq : Quiet accessed (c.cacheFiles eid) (c.cacheAttrs eid) f fa v)
    (hcf : c.cacheFiles eid = none) : Stored f fa v := by
  unfold Quiet at hq
  split at hq
  · obtain ⟨buf, -, -, hdirty | ⟨-, hstored⟩⟩ := hq
    · rw [hcf] at hdirty
      cases hdirty
    · exact hstored
  · exact hq.2.2

/-- A cached content is the reference content, and its attributes are cached too. -/
theorem Quiet.cached (hq : Quiet accessed (c.cacheFiles eid) (c.cacheAttrs eid) f fa v)
    {a : attr} (hca : c.cacheAttrs eid = some a) :
    ∃ buf, v = some buf ∧ a.size = unsignedLength buf
      ∧ (c.cacheFiles eid = some ⟨buf, true⟩
        ∨ ((c.cacheFiles eid = none ∨ c.cacheFiles eid = some ⟨buf, false⟩) ∧ Stored f fa v)) := by
  unfold Quiet at hq
  split at hq
  · obtain ⟨buf, hv, ⟨a', ha', hsize⟩, hcf⟩ := hq
    rw [hca, Option.some.injEq] at ha'
    exact ⟨buf, hv, ha' ▸ hsize, hcf⟩
  · rw [hca] at hq
    cases hq.2.1

/-- Content is never cached without attributes. -/
theorem Quiet.attrs (hq : Quiet accessed (c.cacheFiles eid) (c.cacheAttrs eid) f fa v)
    (hca : c.cacheAttrs eid = none) : c.cacheFiles eid = none := by
  unfold Quiet at hq
  split at hq
  · obtain ⟨-, -, ⟨a, ha, -⟩, -⟩ := hq
    rw [hca] at ha
    cases ha
  · exact hq.1

theorem enter_get (now : ℕ) (hq : Quiet accessed (c.cacheFiles eid) (c.cacheAttrs eid) f fa v)
    (hv : v ≠ none) :
    Outcome true ((enter c eid now .get).1.cacheFiles eid)
      ((enter c eid now .get).1.cacheAttrs eid) f fa v (enter c eid now .get).2 := by
  unfold enter
  cases hcf : c.cacheFiles eid with
  | none =>
    -- a miss: the server is asked
    exact ⟨rfl, hcf, hv, hq.stored hcf⟩
  | some ent =>
    cases hca : c.cacheAttrs eid with
    | none =>
      rw [hq.attrs hca] at hcf
      cases hcf
    | some a =>
      obtain ⟨buf, rfl, hsize, hfile⟩ := hq.cached hca
      have hent : ent.fileExt = buf := by
        rcases hfile with h | ⟨h | h, -⟩ <;> rw [h] at hcf <;> cases hcf
        · rfl
        · rfl
      refine ⟨⟨rfl, congrArg some hent.symm⟩, buf, rfl, ⟨_, Function.update_self .., ?_⟩, hfile⟩
      simp only [extent_client.attrAt, hca, Option.getD_some]
      exact hsize

theorem enter_getattr (now : ℕ)
    (hq : Quiet accessed (c.cacheFiles eid) (c.cacheAttrs eid) f fa v) (hv : v ≠ none) :
    Outcome true ((enter c eid now .getattr).1.cacheFiles eid)
      ((enter c eid now .getattr).1.cacheAttrs eid) f fa v (enter c eid now .getattr).2 := by
  unfold enter
  cases hca : c.cacheAttrs eid with
  | none => exact ⟨rfl, hq.attrs hca, hv, hq.stored (hq.attrs hca)⟩
  | some a =>
    obtain ⟨buf, rfl, hsize, hfile⟩ := hq.cached hca
    exact ⟨⟨rfl, buf, rfl, hsize⟩, buf, rfl, ⟨a, hca, hsize⟩, hfile⟩

theorem enter_put (now : ℕ) (buf : Content) :
    Outcome true ((enter c eid now (.put buf)).1.cacheFiles eid)
      ((enter c eid now (.put buf)).1.cacheAttrs eid) f fa v (enter c eid now (.put buf)).2 := by
  have hfile : (c.setFile eid ⟨buf, true⟩).cacheFiles eid = some ⟨buf, true⟩ :=
    Function.update_self ..
  unfold enter
  cases hca : (c.setFile eid ⟨buf, true⟩).cacheAttrs eid with
  | none =>
    simp only [hca]
    exact ⟨rfl, hfile⟩
  | some a =>
    simp only [hca]
    exact ⟨rfl, buf, rfl, ⟨_, Function.update_self .., rfl⟩, .inl hfile⟩

theorem enter_flush (now : ℕ) (hq : Quiet true (c.cacheFiles eid) (c.cacheAttrs eid) f fa v) :
    Outcome false ((enter c eid now .flush).1.cacheFiles eid)
      ((enter c eid now .flush).1.cacheAttrs eid) f fa v (enter c eid now .flush).2 := by
  unfold enter
  -- the attributes are cached, so the branch that sends a remove is not taken
  obtain ⟨buf, rfl, ⟨a, hca, -⟩, hdirty | ⟨hnone | hclean, hstored⟩⟩ := hq
  · rw [hdirty]
    exact ⟨rfl, Function.update_self .., Function.update_self .., rfl⟩
  · rw [hnone, hca]
    exact ⟨rfl, hnone, Function.update_self .., hstored⟩
  · rw [hclean]
    exact ⟨rfl, Function.update_self .., Function.update_self .., hstored⟩

end Enter

variable {eid : ℕ} {c : extent_client}

/-- The first critical section of an operation does what it should. -/
theorem enter_outcome {h : Hold} (now : ℕ) {f v : Option Content} {fa : Option attr} {op : Op}
    (hq : Quiet h.accessed (c.cacheFiles eid) (c.cacheAttrs eid) f fa v)
    (hop : allowed h v op = true) :
    Outcome (h.start op).accessed ((enter c eid now op).1.cacheFiles eid)
      ((enter c eid now op).1.cacheAttrs eid) f fa v (enter c eid now op).2 := by
  cases op with
  | get => exact enter_get now hq (Option.isSome_iff_ne_none.mp hop)
  | getattr => exact enter_getattr now hq (Option.isSome_iff_ne_none.mp hop)
  | put buf => exact enter_put now buf
  | remove => cases hop
  | flush =>
    rw [show h.accessed = true from hop] at hq
    exact enter_flush now hq

theorem getattr_stored {buf : Content} (junk : attr)
    (h : Stored (server.files eid) (server.fileAttrs eid) (some buf)) :
    (server.getattr eid junk).1 = .OK ∧ (server.getattr eid junk).2.size = unsignedLength buf := by
  obtain ⟨a, ha, hsize⟩ := h.2 buf rfl
  rw [extent_server.getattr, ha]
  exact ⟨rfl, hsize⟩

/-- `get` at the server changes only the access time. -/
theorem get_stored {buf : Content} (now : ℕ)
    (h : Stored (server.files eid) (server.fileAttrs eid) (some buf)) :
    (server.get eid now).2.2 = buf
      ∧ Stored ((server.get eid now).1.files eid) ((server.get eid now).1.fileAttrs eid)
          (some buf) := by
  obtain ⟨a, ha, hsize⟩ := h.2 buf rfl
  rw [extent_server.get, h.1]
  refine ⟨rfl, h.1, ?_⟩
  rintro _ ⟨rfl⟩
  refine ⟨_, Function.update_self .., ?_⟩
  rw [extent_server.attrAt, ha]
  exact hsize

theorem put_stored (server : extent_server) (eid : ℕ) (buf : Content) (now : ℕ) :
    Stored ((server.put eid buf now).files eid) ((server.put eid buf now).fileAttrs eid)
      (some buf) := by
  refine ⟨Function.update_self .., ?_⟩
  rintro _ ⟨rfl⟩
  exact ⟨_, Function.update_self .., rfl⟩

/-- Every later step of an operation does what it should. -/
theorem resume_outcome {accessed : Bool}
    (now : ℕ) (junk : attr) {v : Option Content} {pc : Pc} (hacc : accessed = !flushing pc)
    (hpc : Underway (c.cacheFiles eid) (c.cacheAttrs eid) (server.files eid)
      (server.fileAttrs eid) v pc) :
    Outcome accessed ((resume c server eid now junk pc).1.cacheFiles eid)
      ((resume c server eid now junk pc).1.cacheAttrs eid)
      ((resume c server eid now junk pc).2.1.files eid)
      ((resume c server eid now junk pc).2.1.fileAttrs eid) v
      (resume c server eid now junk pc).2.2 := by
  cases pc with
  | get_call =>
    obtain ⟨hcf, hv, hst⟩ := hpc
    obtain ⟨buf, rfl⟩ := Option.ne_none_iff_exists'.mp hv
    have hget := get_stored now hst
    exact ⟨hacc, hcf, congrArg some hget.1.symm, hget.2⟩
  | get_callattr buf =>
    obtain ⟨-, rfl, hst⟩ := hpc
    have hattr := getattr_stored junk hst
    exact ⟨hacc, rfl, hst, hattr.1, hattr.2⟩
  | get_fill ret buf a =>
    obtain ⟨rfl, hst, hret, hsize⟩ := hpc
    subst hacc
    exact ⟨⟨hret, rfl⟩, buf, rfl, ⟨a, Function.update_self .., hsize⟩,
      .inr ⟨.inr (Function.update_self ..), hst⟩⟩
  | getattr_call =>
    obtain ⟨hcf, hv, hst⟩ := hpc
    obtain ⟨buf, rfl⟩ := Option.ne_none_iff_exists'.mp hv
    have hattr := getattr_stored junk hst
    exact ⟨hacc, hcf, hattr.1, hst, buf, rfl, hattr.2⟩
  | getattr_fill ret a =>
    obtain ⟨hcf, hret, hst, buf, rfl, hsize⟩ := hpc
    subst hacc
    exact ⟨⟨hret, buf, rfl, hsize⟩, buf, rfl, ⟨a, Function.update_self .., hsize⟩,
      .inr ⟨.inl hcf, hst⟩⟩
  | put_call buf => exact ⟨hacc, hpc⟩
  | put_fill buf ret a =>
    subst hacc
    exact ⟨rfl, buf, rfl, ⟨_, Function.update_self .., rfl⟩, .inl hpc⟩
  | flush_put buf =>
    obtain ⟨hcf, hca, rfl⟩ := hpc
    subst hacc
    exact ⟨rfl, hcf, hca, put_stored server eid buf now⟩
  | flush_remove => cases hpc
  | done r => cases hpc

/-! ## Frame -/

/-- Two caches agree at extent `e`. -/
def SameAt (e : ℕ) (c c' : extent_client) : Prop :=
  c'.cacheFiles e = c.cacheFiles e ∧ c'.cacheAttrs e = c.cacheAttrs e

variable {e : ℕ}

theorem enter_frame (c : extent_client) (now : ℕ) (op : Op) (he : e ≠ eid) :
    SameAt e c (enter c eid now op).1 := by
  unfold enter
  cases op <;> dsimp only <;> repeat' split
  all_goals simp [SameAt, extent_client.setAttr, extent_client.setFile, extent_client.erase, he]

theorem resume_frame (c : extent_client) (server : extent_server) (now : ℕ)
    (junk : attr) (pc : Pc) (he : e ≠ eid) :
    SameAt e c (resume c server eid now junk pc).1
      ∧ (resume c server eid now junk pc).2.1.files e = server.files e
      ∧ (resume c server eid now junk pc).2.1.fileAttrs e = server.fileAttrs e := by
  have hget : (server.get eid now).1.files e = server.files e
      ∧ (server.get eid now).1.fileAttrs e = server.fileAttrs e := by
    unfold extent_server.get
    split <;> simp [he]
  have hput (buf : Content) : (server.put eid buf now).files e = server.files e
      ∧ (server.put eid buf now).fileAttrs e = server.fileAttrs e := by
    simp [extent_server.put, he]
  have hremove : (server.remove eid).1.files e = server.files e
      ∧ (server.remove eid).1.fileAttrs e = server.fileAttrs e := by
    unfold extent_server.remove
    repeat' split
    all_goals simp [he]
  -- every branch reads and writes at `eid` only
  cases pc <;>
    simp [resume, SameAt, extent_client.setAttr, extent_client.setFile, he, hget, hput, hremove]

/-! ## Steps of the system -/

/-- A client whose cache is set agrees with what it was where the new cache does. -/
theorem SameAt.update {clients : ℕ → extent_client} {cl e : ℕ}
    (h : SameAt e (clients cl) c) (c' : ℕ) :
    SameAt e (clients c') (Function.update clients cl c c') := by
  by_cases hc' : c' = cl
  · subst hc'
    rw [Function.update_self]
    exact h
  · rw [Function.update_of_ne hc']
    exact ⟨rfl, rfl⟩

variable {s : System} {files : ℕ → Option Content}

/-- The slice at the extent of an operation, with the hold and the reference content that a
step of it leaves. -/
theorem Inv.slice_own (hinv : Inv files s) {h hold : Hold} {f : Option Content} {fa : Option attr}
    {v : Option Content} (hhold : s.holds eid = some h) (hclient : hold.client = h.client)
    (hok : Holding hold (c.cacheFiles eid) (c.cacheAttrs eid) f fa v) :
    SliceOk (some hold) (fun c' => (Function.update s.clients h.client c c').cacheFiles eid)
      (fun c' => (Function.update s.clients h.client c c').cacheAttrs eid) f fa v := by
  have hslice := hinv eid
  rw [hhold] at hslice
  refine ⟨fun c' hc' => ?_, ?_⟩
  · rw [hclient] at hc'
    simp only [Function.update_of_ne hc']
    exact hslice.1 c' hc'
  · simp only [hclient, Function.update_self]
    exact hok

/-- The slice at another extent is the one it was. -/
theorem Inv.slice_other (hinv : Inv files s) {cl e : ℕ} (hcache : SameAt e (s.clients cl) c)
    (hserver : server.files e = s.server.files e ∧ server.fileAttrs e = s.server.fileAttrs e) :
    SliceOk (s.holds e) (fun c' => (Function.update s.clients cl c c').cacheFiles e)
      (fun c' => (Function.update s.clients cl c c').cacheAttrs e) (server.files e)
      (server.fileAttrs e) (content files s.log e) := by
  have hsame := hcache.update
  simp only [(hsame _).1, (hsame _).2, hserver.1, hserver.2]
  exact hinv e

/-- A step of an operation under hold `h` with a right outcome keeps every slice in
order: its own by the outcome, the others because it does not touch them. -/
theorem inv_settle (hinv : Inv files s) {h h' : Hold} {pc : Pc}
    (hhold : s.holds eid = some h) (hclient : h'.client = h.client)
    (hcache : ∀ e, e ≠ eid → SameAt e (s.clients h.client) c)
    (hserver : ∀ e, e ≠ eid → server.files e = s.server.files e
      ∧ server.fileAttrs e = s.server.fileAttrs e)
    (hout : Outcome h'.accessed (c.cacheFiles eid) (c.cacheAttrs eid) (server.files eid)
      (server.fileAttrs eid) (content files s.log eid) pc) :
    Inv files (settle s h' eid c server pc) := by
  intro e
  unfold settle
  split
  · next r =>
    obtain ⟨-, hquiet⟩ := hout
    simp only [hclient]
    by_cases he : e = eid
    · subst he
      simp only [Function.update_self, content_append]
      exact hinv.slice_own hhold rfl hquiet
    · simp only [Function.update_of_ne he, content_append]
      exact hinv.slice_other (hcache e he) (hserver e he)
  · next hdone =>
    simp only [hclient]
    by_cases he : e = eid
    · subst he
      simp only [Function.update_self]
      refine hinv.slice_own hhold rfl ?_
      unfold Outcome at hout
      split at hout
      · next r => exact (hdone r rfl).elim
      · exact hout
    · simp only [Function.update_of_ne he]
      exact hinv.slice_other (hcache e he) (hserver e he)

theorem Inv.holding (hinv : Inv files s) {h : Hold} (hhold : s.holds eid = some h) :
    Holding h ((s.clients h.client).cacheFiles eid) ((s.clients h.client).cacheAttrs eid)
      (s.server.files eid) (s.server.fileAttrs eid) (content files s.log eid) := by
  have := hinv eid
  rw [hhold] at this
  exact this.2

variable {s' : System}

/-- A client takes a free lock: nothing of the extent is cached anywhere. -/
theorem inv_acquire {c eid : ℕ}
    (hinv : Inv files s) (hs : step files s (.acquire c eid) = some s') :
    s'.log = s.log ∧ Inv files s' := by
  simp only [step] at hs
  split at hs
  · next hnone =>
    obtain rfl := Option.some.inj hs
    refine ⟨rfl, fun e => ?_⟩
    by_cases he : e = eid
    · subst he
      have hslice := hinv e
      rw [hnone] at hslice
      simp only [Function.update_self]
      exact ⟨fun c' _ => hslice.1 c', (hslice.1 c).1, (hslice.1 c).2, hslice.2⟩
    · simp only [Function.update_of_ne he]
      exact hinv e
  · cases hs

/-- A client gives the lock back after its flush. -/
theorem inv_release (hinv : Inv files s) (hs : step files s (.release eid) = some s') :
    s'.log = s.log ∧ Inv files s' := by
  simp only [step] at hs
  split at hs
  · next h hhold =>
    split at hs
    · next hok =>
      obtain rfl := Option.some.inj hs
      refine ⟨rfl, fun e => ?_⟩
      by_cases he : e = eid
      · subst he
        have hslice := hinv e
        rw [hhold] at hslice
        have hq := hslice.2
        rw [Holding, hok.1] at hq
        -- not accessed since the flush: nothing is cached
        simp only [Quiet, hok.2.1] at hq
        simp only [Function.update_self]
        refine ⟨fun c => ?_, hq.2.2⟩
        by_cases hc : c = h.client
        · rw [hc]
          exact ⟨hq.1, hq.2.1⟩
        · exact hslice.1 c hc
      · simp only [Function.update_of_ne he]
        exact hinv e
    · cases hs
  · cases hs

/-- What a step of an operation does: it goes on under the same client, to a right
outcome. -/
theorem step_operation {a : Act} (hinv : Inv files s) (hs : step files s a = some s') :
    (∃ eid h h' c server pc, s' = settle s h' eid c server pc ∧ s.holds eid = some h
      ∧ h'.client = h.client
      ∧ (∀ e, e ≠ eid → SameAt e (s.clients h.client) c)
      ∧ (∀ e, e ≠ eid → server.files e = s.server.files e
        ∧ server.fileAttrs e = s.server.fileAttrs e)
      ∧ Outcome h'.accessed (c.cacheFiles eid) (c.cacheAttrs eid) (server.files eid)
          (server.fileAttrs eid) (content files s.log eid) pc)
    ∨ (s'.log = s.log ∧ Inv files s') := by
  cases a with
  | acquire c eid => exact .inr (inv_acquire hinv hs)
  | call eid op now =>
    left
    simp only [step] at hs
    split at hs
    · next h hhold =>
      split at hs
      · next hok =>
        obtain rfl := Option.some.inj hs
        have hq := hinv.holding hhold
        rw [Holding, hok.1] at hq
        refine ⟨eid, h, h.start op, _, _, _, rfl, hhold, ?_, fun e he => ?_,
          fun e he => ⟨rfl, rfl⟩, enter_outcome now hq hok.2⟩
        · cases op <;> rfl
        · exact enter_frame _ now op he
      · cases hs
    · cases hs
  | resume eid now junk =>
    left
    simp only [step] at hs
    split at hs
    · next h hhold =>
      split at hs
      · next pc hpc =>
        obtain rfl := Option.some.inj hs
        have hq := hinv.holding hhold
        rw [Holding, hpc] at hq
        exact ⟨eid, h, h, _, _, _, rfl, hhold, rfl,
          fun e he => (resume_frame _ _ now junk pc he).1,
          fun e he => (resume_frame _ _ now junk pc he).2,
          resume_outcome now junk hq.1 hq.2⟩
      · cases hs
    · cases hs
  | release eid => exact .inr (inv_release hinv hs)

theorem inv_step (s : System) (a : Act) (s' : System)
    (hinv : Inv files s) (hs : step files s a = some s') : Inv files s' := by
  rcases step_operation hinv hs with
    ⟨eid, h, h', c, server, pc, rfl, hhold, hclient, hcache, hserver, hout⟩ | ⟨-, hinv'⟩
  · exact inv_settle hinv hhold hclient hcache hserver hout
  · exact hinv'

/-! ## Coherence -/

/-- What the operation that completes in the step from `s` to `s'` returned and left
behind, with `size` the size a content should be reported with. -/
def Coherent (size : Content → ℕ) (files : ℕ → Option Content) (s s' : System) (e : Event) :
    Prop :=
  match e.result with
  | .get ret buf => ret = .OK ∧ content files s.log e.eid = some buf
  | .getattr ret a => ret = .OK ∧ ∃ buf, content files s.log e.eid = some buf ∧ a.size = size buf
  | .put _ ret => ret = .OK
  | .remove _ => False
  | .flush => s'.server.files e.eid = content files s.log e.eid
      ∧ (s'.clients e.client).cacheFiles e.eid = none
      ∧ (s'.clients e.client).cacheAttrs e.eid = none

/-- The event a step adds to the log is coherent. -/
theorem coherent_step {a : Act} {e : Event}
    (hinv : Inv files s) (hs : step files s a = some s') (he : s'.log = s.log ++ [e]) :
    Coherent unsignedLength files s s' e := by
  rcases step_operation hinv hs with
    ⟨eid, h, h', c, server, pc, rfl, -, -, -, -, hout⟩ | ⟨hlog, -⟩
  · unfold settle at he ⊢
    split at he
    · next r =>
      obtain ⟨hr, hq⟩ := hout
      obtain rfl := (List.singleton_inj.mp (List.append_cancel_left he)).symm
      cases r with
      | get ret buf => exact hr
      | getattr ret a => exact hr
      | put buf ret => exact hr
      | remove ret => exact hr
      | flush =>
        -- only a flush clears the mark of an access, so the caches are empty
        rw [show h'.accessed = false from hr] at hq
        obtain ⟨hcf, hca, hst, -⟩ := hq
        refine ⟨hst, ?_, ?_⟩
        · simp only [Function.update_self]
          exact hcf
        · simp only [Function.update_self]
          exact hca
    · simp at he
  · rw [hlog] at he
    simp at he

/-- **The extent caches are coherent.** In every run over a consistent store, every
completed `get` returns the content of the most recent `put` or the initial content,
every `getattr` the length of that content in an `unsigned int`, and every `flush`
leaves that content at the server and nothing of the extent in the client's caches. The
operations on one extent are made one after the other, also inside one client: a call
starts when the one before it has returned, as it does under the extent's lock. -/
theorem caches_coherent {server : extent_server} (hserver : Consistent server) {as : List Act}
    {a : Act} {s s' : System} {e : Event}
    (hrun : Steps.run (step server.files) (System.init server) as = some s)
    (hs : step server.files s a = some s') (he : s'.log = s.log ++ [e]) :
    Coherent unsignedLength server.files s s' e :=
  coherent_step (Steps.run_inv_all inv_step (inv_init hserver) hrun) hs he

/-- Client 0 puts extent 2 and flushes it, client 1 gets it. -/
def handOver : List Act :=
  [.acquire 0 2, .call 2 (.put ['a', 'b']) 10, .resume 2 11 .zero, .resume 2 11 .zero,
    .call 2 .flush 12, .resume 2 12 .zero, .release 2, .acquire 1 2, .call 2 .get 13,
    .resume 2 13 .zero, .resume 2 13 .zero]

theorem caches_coherent_handOver :
    ∃ s s', Steps.run (step (extent_server.new 5).files) (System.init (.new 5)) handOver = some s
      ∧ step (extent_server.new 5).files s (.resume 2 13 .zero) = some s'
      ∧ s'.log = s.log ++ [⟨1, 2, .get .OK ['a', 'b']⟩]
      ∧ Coherent unsignedLength (extent_server.new 5).files s s' ⟨1, 2, .get .OK ['a', 'b']⟩ := by
  have hex : ((Steps.run (step (extent_server.new 5).files) (System.init (.new 5)) handOver).bind
      fun s => (step (extent_server.new 5).files s (.resume 2 13 .zero)).map
        fun s' => decide (s'.log = s.log ++ [⟨1, 2, .get .OK ['a', 'b']⟩])) = some true := by
    decide
  obtain ⟨s, s', hs, hs', heq⟩ := Steps.exists_run_step hex
  have hlog := of_decide_eq_true heq
  exact ⟨s, s', hs, hs', hlog, caches_coherent (consistent_new 5) hs hs' hlog⟩

/-- Client 0 puts `buf` into the new extent 2 and asks for its attributes. -/
def putBuf (buf : Content) : List Act :=
  [.acquire 0 2, .call 2 (.put buf) 10, .resume 2 11 .zero, .resume 2 11 .zero]

/-- The size of a content of 2^32 bytes is reported as 0. -/
theorem getattr_size_wraps :
    ∃ buf s s' e,
      Steps.run (step (extent_server.new 5).files) (System.init (.new 5)) (putBuf buf) = some s
      ∧ step (extent_server.new 5).files s (.call 2 .getattr 12) = some s'
      ∧ s'.log = s.log ++ [e]
      ∧ content (extent_server.new 5).files s.log 2 = some buf
      ∧ e = ⟨0, 2, .getattr .OK ⟨11, 11, 11, 0⟩⟩ ∧ buf.length = 2 ^ 32
      ∧ ¬ Coherent List.length (extent_server.new 5).files s s' e := by
  have hrun : ∀ buf, ∃ s s',
      Steps.run (step (extent_server.new 5).files) (System.init (.new 5)) (putBuf buf) = some s
      ∧ step (extent_server.new 5).files s (.call 2 .getattr 12) = some s'
      ∧ s'.log = s.log ++ [⟨0, 2, .getattr .OK ⟨11, 11, 11, unsignedLength buf⟩⟩]
      ∧ content (extent_server.new 5).files s.log 2 = some buf := by
    -- the run never looks into the content, so it evaluates for every content
    intro buf
    exact ⟨_, _, rfl, rfl, rfl, rfl⟩
  obtain ⟨s, s', hs, hs', hlog, hcontent⟩ := hrun (List.replicate (2 ^ 32) 'a')
  have hlen : (List.replicate (2 ^ 32) 'a').length = 2 ^ 32 := List.length_replicate
  have hsize : unsignedLength (List.replicate (2 ^ 32) 'a') = 0 := by
    rw [unsignedLength, hlen, Nat.mod_self]
  rw [hsize] at hlog
  refine ⟨_, s, s', _, hs, hs', hlog, hcontent, rfl, hlen, ?_⟩
  rintro ⟨-, buf, hbuf, h0⟩
  have heq := Option.some.inj (hcontent.symm.trans hbuf)
  rw [← heq, hlen] at h0
  cases h0

end Yfs.ExtentCoherence
