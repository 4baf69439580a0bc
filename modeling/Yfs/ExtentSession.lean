/-
One `extent_client`, one call after the other.

`Extent` cuts an operation where the client drops its mutex. A client whose calls do
not overlap runs each from its first critical section to its result: at most two RPCs
and the critical section after them. Each operation has one equation for each state
of the cache it can meet.

A call on one extent neither changes nor reads what is stored of another
(`runCall_same`, `runCall_local`).
-/
import Yfs.Extent
import Yfs.Steps

set_option autoImplicit false

namespace Yfs.ExtentSession

open Yfs.Extent

/-! ## A call from its start to its result -/

/-- A call: `now` are its readings of the clock, `junk` the attributes that an
unsuccessful `getattr` sends back. -/
structure Call where
  eid : ℕ
  op : Op
  now : ℕ → ℕ
  junk : attr

/-- A call that always reads the time 0. -/
def at0 (eid : ℕ) (op : Op) : Call := ⟨eid, op, fun _ => 0, .zero⟩

/-- The client and the server after a call, and where the operation stands. -/
def runCall (c : extent_client) (s : extent_server) (a : Call) :
    extent_client × extent_server × Pc :=
  let r₀ := enter c a.eid (a.now 0) a.op
  let r₁ := resume r₀.1 s a.eid (a.now 1) a.junk r₀.2
  let r₂ := resume r₁.1 r₁.2.1 a.eid (a.now 2) a.junk r₁.2.2
  resume r₂.1 r₂.2.1 a.eid (a.now 3) a.junk r₂.2.2

/-- What a call returns to its caller. -/
def result : Pc → Result
  | .done r => r
  -- a call has always come to its end (`runCall_done`)
  | _ => .flush

/-! ## The caches at one extent -/

section Caches

variable (c : extent_client) (eid : ℕ)

@[simp] theorem setAttr_cacheAttrs (x : attr) : (c.setAttr eid x).cacheAttrs eid = some x :=
  Function.update_self ..

@[simp] theorem setAttr_cacheFiles (x : attr) : (c.setAttr eid x).cacheFiles = c.cacheFiles := rfl

@[simp] theorem setFile_cacheFiles (f : cacheFileEnt) :
    (c.setFile eid f).cacheFiles eid = some f := Function.update_self ..

@[simp] theorem erase_cacheFiles : (c.erase eid).cacheFiles eid = none := Function.update_self ..

@[simp] theorem erase_cacheAttrs : (c.erase eid).cacheAttrs eid = none := Function.update_self ..

end Caches

/-! ## The server, by what it stores -/

section Server

variable {s : extent_server} {eid : ℕ}

theorem get_some {buf : Content} (h : s.files eid = some buf) (now : ℕ) :
    s.get eid now
      = ({ s with fileAttrs :=
            Function.update s.fileAttrs eid (some { s.attrAt eid with atime := now }) },
          .OK, buf) := by
  rw [extent_server.get, h]

theorem get_none (h : s.files eid = none) (now : ℕ) : s.get eid now = (s, .NOENT, []) := by
  rw [extent_server.get, h]

theorem getattr_some {x : attr} (h : s.fileAttrs eid = some x) (junk : attr) :
    s.getattr eid junk = (.OK, x) := by
  rw [extent_server.getattr, h]

theorem getattr_none (h : s.fileAttrs eid = none) (junk : attr) :
    s.getattr eid junk = (.IOERR, junk) := by
  rw [extent_server.getattr, h]

end Server

/-! ## Each operation, by what it finds in the caches -/

section Equations

variable {c : extent_client} {s : extent_server} {a : Call}

/-- An operation that has ended stays where it is. -/
@[simp] theorem resume_done (c : extent_client) (s : extent_server) (eid now : ℕ) (junk : attr)
    (r : Result) : resume c s eid now junk (.done r) = (c, s, .done r) := by
  simp only [resume]

/-- A cached content is returned without a request; only the access time moves. -/
theorem runCall_get_hit {f : cacheFileEnt} (hop : a.op = .get)
    (hf : c.cacheFiles a.eid = some f) :
    runCall c s a
      = (c.setAttr a.eid { c.attrAt a.eid with atime := a.now 0 }, s,
          .done (.get .OK f.fileExt)) := by
  simp only [runCall, hop, enter, hf, resume_done]

/-- A `get` that misses returns the status of the second of its two RPCs and keeps what
they sent back, whatever it was. -/
theorem runCall_get_miss (hop : a.op = .get) (hf : c.cacheFiles a.eid = none) :
    runCall c s a
      = ((c.setFile a.eid ⟨(s.get a.eid (a.now 1)).2.2, false⟩).setAttr a.eid
            ((s.get a.eid (a.now 1)).1.getattr a.eid a.junk).2,
          (s.get a.eid (a.now 1)).1,
          .done (.get ((s.get a.eid (a.now 1)).1.getattr a.eid a.junk).1
            (s.get a.eid (a.now 1)).2.2)) := by
  simp only [runCall, hop, enter, hf, resume]

theorem runCall_getattr_hit {x : attr} (hop : a.op = .getattr)
    (hx : c.cacheAttrs a.eid = some x) :
    runCall c s a = (c, s, .done (.getattr .OK x)) := by
  simp only [runCall, hop, enter, hx, resume_done]

/-- The attributes are cached even if the server has none: then they are whatever the
uninitialised answer holds. -/
theorem runCall_getattr_miss (hop : a.op = .getattr) (hx : c.cacheAttrs a.eid = none) :
    runCall c s a
      = (c.setAttr a.eid (s.getattr a.eid a.junk).2, s,
          .done (.getattr (s.getattr a.eid a.junk).1 (s.getattr a.eid a.junk).2)) := by
  simp only [runCall, hop, enter, hx, resume]

/-- A `put` writes to the cache only, the content and its length. -/
theorem runCall_put (c : extent_client) (s : extent_server) {buf : Content}
    (hop : a.op = .put buf) :
    ∃ x, x.size = unsignedLength buf ∧ runCall c s a
      = ((c.setFile a.eid ⟨buf, true⟩).setAttr a.eid x, s, .done (.put buf .OK)) := by
  cases hx : c.cacheAttrs a.eid with
  | some x =>
    have hx' : (c.setFile a.eid ⟨buf, true⟩).cacheAttrs a.eid = some x := hx
    refine ⟨⟨x.atime, a.now 0, a.now 0, unsignedLength buf⟩, rfl, ?_⟩
    simp only [runCall, hop, enter, hx', resume]
  | none =>
    have hx' : (c.setFile a.eid ⟨buf, true⟩).cacheAttrs a.eid = none := hx
    refine ⟨⟨if (s.getattr a.eid a.junk).1 = .OK then (s.getattr a.eid a.junk).2.atime
      else a.now 2, a.now 2, a.now 2, unsignedLength buf⟩, rfl, ?_⟩
    simp only [runCall, hop, enter, hx', resume]

/-- A `remove` drops what the cache has and does not ask the server. -/
theorem runCall_remove (hop : a.op = .remove) :
    runCall c s a = (c.erase a.eid, s, .done (.remove .OK)) := by
  simp only [runCall, hop, enter, resume_done]

/-- A modified content is written back, and leaves both caches. -/
theorem runCall_flush_dirty {buf : Content} (hop : a.op = .flush)
    (hf : c.cacheFiles a.eid = some ⟨buf, true⟩) :
    runCall c s a = (c.erase a.eid, s.put a.eid buf (a.now 1), .done .flush) := by
  simp only [runCall, hop, enter, hf, resume, if_true]

theorem runCall_flush_clean {buf : Content} (hop : a.op = .flush)
    (hf : c.cacheFiles a.eid = some ⟨buf, false⟩) :
    runCall c s a = (c.erase a.eid, s, .done .flush) := by
  simp only [runCall, hop, enter, hf, resume_done, Bool.false_eq_true, if_false]

theorem runCall_flush_attr {x : attr} (hop : a.op = .flush) (hf : c.cacheFiles a.eid = none)
    (hx : c.cacheAttrs a.eid = some x) :
    runCall c s a
      = ({ c with cacheAttrs := Function.update c.cacheAttrs a.eid none }, s, .done .flush) := by
  simp only [runCall, hop, enter, hf, hx, resume_done]

/-- A `flush` of an extent in neither cache sends a `remove`. -/
theorem runCall_flush_unknown (hop : a.op = .flush) (hf : c.cacheFiles a.eid = none)
    (hx : c.cacheAttrs a.eid = none) :
    runCall c s a = (c, (s.remove a.eid).1, .done .flush) := by
  simp only [runCall, hop, enter, hf, hx, resume]

/-- Every call comes to its end. -/
theorem runCall_done (c : extent_client) (s : extent_server) (a : Call) :
    ∃ r, (runCall c s a).2.2 = .done r := by
  cases hop : a.op with
  | get =>
    cases hf : c.cacheFiles a.eid with
    | some f => exact ⟨_, congrArg (·.2.2) (runCall_get_hit hop hf)⟩
    | none => exact ⟨_, congrArg (·.2.2) (runCall_get_miss hop hf)⟩
  | getattr =>
    cases hx : c.cacheAttrs a.eid with
    | some x => exact ⟨_, congrArg (·.2.2) (runCall_getattr_hit hop hx)⟩
    | none => exact ⟨_, congrArg (·.2.2) (runCall_getattr_miss hop hx)⟩
  | put buf =>
    obtain ⟨x, -, hx⟩ := runCall_put c s hop
    exact ⟨_, congrArg (·.2.2) hx⟩
  | remove => exact ⟨_, congrArg (·.2.2) (runCall_remove hop)⟩
  | flush =>
    cases hf : c.cacheFiles a.eid with
    | some f =>
      obtain ⟨buf, dirty⟩ := f
      cases dirty with
      | true => exact ⟨_, congrArg (·.2.2) (runCall_flush_dirty hop hf)⟩
      | false => exact ⟨_, congrArg (·.2.2) (runCall_flush_clean hop hf)⟩
    | none =>
      cases hx : c.cacheAttrs a.eid with
      | some x => exact ⟨_, congrArg (·.2.2) (runCall_flush_attr hop hf hx)⟩
      | none => exact ⟨_, congrArg (·.2.2) (runCall_flush_unknown hop hf hx)⟩

end Equations

/-! ## What a call does to other extents -/

/-- Everything stored under `id` is the same, at the client and at the server. -/
structure Same (id : ℕ) (c c' : extent_client) (s s' : extent_server) : Prop where
  cacheFiles : c'.cacheFiles id = c.cacheFiles id
  cacheAttrs : c'.cacheAttrs id = c.cacheAttrs id
  files : s'.files id = s.files id
  fileAttrs : s'.fileAttrs id = s.fileAttrs id

section Frame

variable {id eid : ℕ} {c c' : extent_client} {s s' : extent_server}

theorem Same.setAttr (h : Same id c c' s s') (hne : id ≠ eid) (x : attr) :
    Same id c (c'.setAttr eid x) s s' :=
  ⟨h.cacheFiles, (Function.update_of_ne hne ..).trans h.cacheAttrs, h.files, h.fileAttrs⟩

theorem Same.setFile (h : Same id c c' s s') (hne : id ≠ eid) (f : cacheFileEnt) :
    Same id c (c'.setFile eid f) s s' :=
  ⟨(Function.update_of_ne hne ..).trans h.cacheFiles, h.cacheAttrs, h.files, h.fileAttrs⟩

theorem Same.erase (h : Same id c c' s s') (hne : id ≠ eid) : Same id c (c'.erase eid) s s' :=
  ⟨(Function.update_of_ne hne ..).trans h.cacheFiles,
    (Function.update_of_ne hne ..).trans h.cacheAttrs, h.files, h.fileAttrs⟩

theorem Same.get (h : Same id c c' s s') (hne : id ≠ eid) (now : ℕ) :
    Same id c c' s (s'.get eid now).1 := by
  unfold extent_server.get
  split
  · exact ⟨h.cacheFiles, h.cacheAttrs, h.files, (Function.update_of_ne hne ..).trans h.fileAttrs⟩
  · exact h

theorem Same.put (h : Same id c c' s s') (hne : id ≠ eid) (buf : Content) (now : ℕ) :
    Same id c c' s (s'.put eid buf now) :=
  ⟨h.cacheFiles, h.cacheAttrs, (Function.update_of_ne hne ..).trans h.files,
    (Function.update_of_ne hne ..).trans h.fileAttrs⟩

theorem Same.remove (h : Same id c c' s s') (hne : id ≠ eid) :
    Same id c c' s (s'.remove eid).1 := by
  unfold extent_server.remove
  split
  · exact h
  · dsimp only
    split
    · exact ⟨h.cacheFiles, h.cacheAttrs, (Function.update_of_ne hne ..).trans h.files,
        (Function.update_of_ne hne ..).trans h.fileAttrs⟩
    · exact ⟨h.cacheFiles, h.cacheAttrs, (Function.update_of_ne hne ..).trans h.files,
        h.fileAttrs⟩

/-- What is the same under every number is the same. -/
theorem eq_of_same (h : ∀ id, Same id c c' s s') : c' = c ∧ s' = s :=
  ⟨extent_client.ext (funext fun id => (h id).cacheFiles) (funext fun id => (h id).cacheAttrs),
    extent_server.ext (funext fun id => (h id).files) (funext fun id => (h id).fileAttrs)⟩

theorem same_refl (id : ℕ) (c : extent_client) (s : extent_server) : Same id c c s s :=
  ⟨rfl, rfl, rfl, rfl⟩

/-- The first critical section of an operation works on its own extent. -/
theorem Same.enter (h : Same id c c' s s') (hne : id ≠ eid) (now : ℕ) (op : Op) :
    Same id c (Extent.enter c' eid now op).1 s s' := by
  cases op with
  | get =>
    simp only [Extent.enter]
    split
    · exact h.setAttr hne _
    · exact h
  | getattr =>
    simp only [Extent.enter]
    split
    · exact h
    · exact h
  | put buf =>
    simp only [Extent.enter]
    split
    · exact (h.setFile hne _).setAttr hne _
    · exact h.setFile hne _
  | remove => exact h.erase hne
  | flush =>
    simp only [Extent.enter]
    split
    · exact h.erase hne
    · split
      · exact ⟨h.cacheFiles, (Function.update_of_ne hne ..).trans h.cacheAttrs, h.files,
          h.fileAttrs⟩
      · exact h

/-- So does everything that follows it. -/
theorem Same.resume (h : Same id c c' s s') (hne : id ≠ eid) (now : ℕ) (junk : attr) (pc : Pc) :
    Same id c (Extent.resume c' s' eid now junk pc).1 s
      (Extent.resume c' s' eid now junk pc).2.1 := by
  cases pc with
  | get_call => exact h.get hne now
  | get_fill ret buf x => exact (h.setFile hne _).setAttr hne _
  | getattr_fill ret x => exact h.setAttr hne _
  | put_fill buf ret x => exact h.setAttr hne _
  | flush_put buf => exact h.put hne buf now
  | flush_remove => exact h.remove hne
  | get_callattr buf | getattr_call | put_call buf | done r => exact h

/-- **A call** leaves every other extent alone. -/
theorem runCall_same (a : Call) (hne : id ≠ a.eid) :
    Same id c (runCall c s a).1 s (runCall c s a).2.1 :=
  ((((same_refl id c s).enter hne _ _).resume hne _ _ _).resume hne _ _ _).resume hne _ _ _

end Frame

/-! ## What a call reads -/

section Local

variable {eid : ℕ} {c c' : extent_client} {s s' : extent_server}

/-- What an update of two maps at one key leaves there does not depend on the maps. -/
theorem update_at_eq {α : Type} (f g : ℕ → α) (eid : ℕ) (x : α) :
    Function.update f eid x eid = Function.update g eid x eid := by
  rw [Function.update_self, Function.update_self]

theorem Same.both_setAttr (h : Same eid c c' s s') (x : attr) :
    Same eid (c.setAttr eid x) (c'.setAttr eid x) s s' :=
  ⟨h.cacheFiles, update_at_eq _ _ _ _, h.files, h.fileAttrs⟩

theorem Same.both_setFile (h : Same eid c c' s s') (f : cacheFileEnt) :
    Same eid (c.setFile eid f) (c'.setFile eid f) s s' :=
  ⟨update_at_eq _ _ _ _, h.cacheAttrs, h.files, h.fileAttrs⟩

theorem Same.both_erase (h : Same eid c c' s s') : Same eid (c.erase eid) (c'.erase eid) s s' :=
  ⟨update_at_eq _ _ _ _, update_at_eq _ _ _ _, h.files, h.fileAttrs⟩

theorem Same.both_attrAt (h : Same eid c c' s s') : c'.attrAt eid = c.attrAt eid := by
  rw [extent_client.attrAt, h.cacheAttrs, extent_client.attrAt]

/-- What the first critical section does depends on the client's own two entries. -/
theorem Same.both_enter (h : Same eid c c' s s') (now : ℕ) (op : Op) :
    (Extent.enter c' eid now op).2 = (Extent.enter c eid now op).2
      ∧ Same eid (Extent.enter c eid now op).1 (Extent.enter c' eid now op).1 s s' := by
  cases op with
  | get =>
    simp only [Extent.enter, h.cacheFiles, h.both_attrAt]
    cases c.cacheFiles eid with
    | some f => exact ⟨rfl, h.both_setAttr _⟩
    | none => exact ⟨rfl, h⟩
  | getattr =>
    simp only [Extent.enter, h.cacheAttrs]
    cases c.cacheAttrs eid with
    | some x => exact ⟨rfl, h⟩
    | none => exact ⟨rfl, h⟩
  | put buf =>
    have hset := h.both_setFile ⟨buf, true⟩
    simp only [Extent.enter, hset.cacheAttrs]
    cases (c.setFile eid ⟨buf, true⟩).cacheAttrs eid with
    | some x => exact ⟨rfl, hset.both_setAttr _⟩
    | none => exact ⟨rfl, hset⟩
  | remove => exact ⟨rfl, h.both_erase⟩
  | flush =>
    simp only [Extent.enter, h.cacheFiles, h.cacheAttrs]
    cases c.cacheFiles eid with
    | some f => exact ⟨rfl, h.both_erase⟩
    | none =>
      cases c.cacheAttrs eid with
      | some x =>
        exact ⟨rfl, h.cacheFiles, update_at_eq _ _ _ _, h.files, h.fileAttrs⟩
      | none => exact ⟨rfl, h⟩

theorem Same.both_get (h : Same eid c c' s s') (now : ℕ) :
    (s'.get eid now).2 = (s.get eid now).2
      ∧ Same eid c c' (s.get eid now).1 (s'.get eid now).1 := by
  simp only [extent_server.get, h.files, extent_server.attrAt, h.fileAttrs]
  cases hf : s.files eid with
  | some buf =>
    exact ⟨rfl, h.cacheFiles, h.cacheAttrs, h.files, update_at_eq _ _ _ _⟩
  | none => exact ⟨rfl, h⟩

theorem Same.both_getattr (h : Same eid c c' s s') (junk : attr) :
    s'.getattr eid junk = s.getattr eid junk := by
  rw [extent_server.getattr, h.fileAttrs, extent_server.getattr]

theorem Same.both_put (h : Same eid c c' s s') (buf : Content) (now : ℕ) :
    Same eid c c' (s.put eid buf now) (s'.put eid buf now) := by
  refine ⟨h.cacheFiles, h.cacheAttrs, ?_, ?_⟩
  · simp only [extent_server.put, Function.update_self]
  · simp only [extent_server.put, Function.update_self, extent_server.attrAt, h.files, h.fileAttrs]

theorem Same.both_remove (h : Same eid c c' s s') :
    Same eid c c' (s.remove eid).1 (s'.remove eid).1 := by
  simp only [extent_server.remove, h.files, h.fileAttrs]
  cases s.files eid with
  | none => exact h
  | some buf =>
    cases s.fileAttrs eid with
    | none =>
      exact ⟨h.cacheFiles, h.cacheAttrs, update_at_eq _ _ _ _, h.fileAttrs⟩
    | some x =>
      exact ⟨h.cacheFiles, h.cacheAttrs, update_at_eq _ _ _ _, update_at_eq _ _ _ _⟩

/-- So does what follows it, with the server's two entries, from where the first has
left the two sides. -/
theorem both_resume {pc pc' : Pc} (hsame : pc' = pc ∧ Same eid c c' s s') (now : ℕ)
    (junk : attr) :
    (Extent.resume c' s' eid now junk pc').2.2 = (Extent.resume c s eid now junk pc).2.2
      ∧ Same eid (Extent.resume c s eid now junk pc).1 (Extent.resume c' s' eid now junk pc').1
          (Extent.resume c s eid now junk pc).2.1 (Extent.resume c' s' eid now junk pc').2.1 := by
  obtain ⟨rfl, h⟩ := hsame
  cases pc' with
  | get_call =>
    obtain ⟨hret, hsame⟩ := h.both_get now
    refine ⟨?_, hsame⟩
    simp only [Extent.resume, hret]
  | get_callattr buf | getattr_call | put_call buf =>
    refine ⟨?_, h⟩
    simp only [Extent.resume, h.both_getattr junk]
  | get_fill ret buf x => exact ⟨rfl, (h.both_setFile _).both_setAttr _⟩
  | getattr_fill ret x => exact ⟨rfl, h.both_setAttr _⟩
  | put_fill buf ret x => exact ⟨rfl, h.both_setAttr _⟩
  | flush_put buf => exact ⟨rfl, h.both_put buf now⟩
  | flush_remove => exact ⟨rfl, h.both_remove⟩
  | done r => exact ⟨rfl, h⟩

/-- **A call reads nothing of another extent**: where the entries under its number are the
same, it returns the same and leaves the same entries there. -/
theorem runCall_local {a : Call} (h : Same a.eid c c' s s') :
    (runCall c' s' a).2.2 = (runCall c s a).2.2
      ∧ Same a.eid (runCall c s a).1 (runCall c' s' a).1 (runCall c s a).2.1
          (runCall c' s' a).2.1 :=
  both_resume (both_resume (both_resume (h.both_enter _ _) _ _) _ _) _ _

end Local

end Yfs.ExtentSession
