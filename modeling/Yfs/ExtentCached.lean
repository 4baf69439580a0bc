/-
A cached extent against the server's extent (`extent_client.cc`, `extent_server.cc`).

One client starts with empty caches and makes a sequence of calls without a `flush`; a
second server, `direct`, gets the same sequence without a cache. The two agree on a
call when both succeed or both fail, with the same content if it was a `get`.

They agree as long as the extent exists for the direct server. Where it does not, the
cache keeps no record that the extent is missing: a removed extent is one the cache
knows nothing of, so that the next access asks the server again, and what a failed
fetch sends back is kept like any other answer. `Sound` says exactly which calls are
answered as without a cache.
-/
import Yfs.ExtentSession

set_option autoImplicit false

namespace Yfs.ExtentCached

open Yfs.Extent Yfs.ExtentSession

/-! ## The two sides -/

/-- The call applied to a server without a client in between. -/
def directCall (t : extent_server) (a : Call) : extent_server × Result :=
  match a.op with
  | .get =>
    let r := t.get a.eid (a.now 0)
    (r.1, .get r.2.1 r.2.2)
  | .getattr =>
    let r := t.getattr a.eid a.junk
    (t, .getattr r.1 r.2)
  | .put buf => (t.put a.eid buf (a.now 0), .put buf .OK)
  | .remove =>
    let r := t.remove a.eid
    (r.1, .remove r.2)
  -- the server has no such operation
  | .flush => (t, .flush)

structure Session where
  client : extent_client
  server : extent_server
  direct : extent_server
  /-- The calls so far, newest first. -/
  log : List (ℕ × Op)

def Session.init (server : extent_server) : Session := ⟨.new, server, server, []⟩

/-- One call on both sides; no `flush` in between. -/
def step (st : Session) (a : Call) : Option Session :=
  if a.op = .flush then none
  else
    let r := runCall st.client st.server a
    some ⟨r.1, r.2.1, (directCall st.direct a).1, (a.eid, a.op) :: st.log⟩

/-- Does the caller see a success? -/
def succeeds : Result → Bool
  | .get ret _ => ret = .OK
  | .getattr ret _ => ret = .OK
  | .put _ ret => ret = .OK
  | .remove ret => ret = .OK
  | .flush => true

/-- The content a `get` has returned. -/
def contentOf : Result → Option Content
  | .get .OK buf => some buf
  | _ => none

/-- Both sides succeed or both fail, and a successful `get` returns the same content. -/
def Agree (st : Session) (a : Call) : Prop :=
  succeeds (result (runCall st.client st.server a).2.2) = succeeds (directCall st.direct a).2
    ∧ contentOf (result (runCall st.client st.server a).2.2) = contentOf (directCall st.direct a).2

instance (st : Session) (a : Call) : Decidable (Agree st a) :=
  inferInstanceAs (Decidable (_ ∧ _))

/-! ## The calls that agree -/

/-- The accesses to `eid` since its last `put` or `remove`, newest first. -/
def accesses (eid : ℕ) : List (ℕ × Op) → List Op
  | [] => []
  | (id, op) :: log =>
    if id = eid then
      match op with
      | .get => .get :: accesses eid log
      | .getattr => .getattr :: accesses eid log
      | _ => []
    else accesses eid log

/-- An access to an extent that does not exist must be the first of its kind since the
extent was removed, and the server must not have stored it from the start; a `remove`
must find the extent. -/
def Sound (server : extent_server) (st : Session) (a : Call) : Prop :=
  st.direct.files a.eid ≠ none ∨
    match a.op with
    | .get => server.files a.eid = none ∧ Op.get ∉ accesses a.eid st.log
    | .getattr => server.files a.eid = none ∧ accesses a.eid st.log = []
    | .put _ => True
    | .remove => False
    | .flush => True

/-- A server that stores these extents with these attributes. -/
def stored (m : ℕ → Option (Content × attr)) : extent_server :=
  ⟨fun id => (m id).map Prod.fst, fun id => (m id).map Prod.snd⟩

/-- The two maps of a server have the same keys. -/
def Paired (s : extent_server) : Prop := ∀ id, s.files id = none ↔ s.fileAttrs id = none

/-! ## The server -/

section Server

variable {s : extent_server} {eid : ℕ}

theorem paired_stored (m : ℕ → Option (Content × attr)) : Paired (stored m) := by
  intro id
  simp [stored]

/-- Contents and attributes are stored together. -/
theorem Paired.attrs (hp : Paired s) {buf : Content} (h : s.files eid = some buf) :
    ∃ x, s.fileAttrs eid = some x := by
  refine Option.ne_none_iff_exists'.mp fun hnone => ?_
  rw [(hp eid).mpr hnone] at h
  cases h

theorem get_files (s : extent_server) (eid now : ℕ) : (s.get eid now).1.files = s.files := by
  unfold extent_server.get
  split
  · rfl
  · rfl

theorem Paired.get (hp : Paired s) (eid now : ℕ) : Paired (s.get eid now).1 := by
  unfold extent_server.get
  split
  · next buf h =>
    intro id
    by_cases hid : id = eid
    · subst hid
      simp [h]
    · simpa [hid] using hp id
  · exact hp

theorem Paired.put (hp : Paired s) (eid : ℕ) (buf : Content) (now : ℕ) :
    Paired (s.put eid buf now) := by
  intro id
  unfold extent_server.put
  by_cases hid : id = eid
  · subst hid
    simp
  · simpa [hid] using hp id

theorem remove_some (hp : Paired s) {buf : Content} (h : s.files eid = some buf) :
    s.remove eid
      = (⟨Function.update s.files eid none, Function.update s.fileAttrs eid none⟩, .OK) := by
  obtain ⟨x, hx⟩ := hp.attrs h
  rw [extent_server.remove, h]
  simp only [hx]

theorem remove_none (h : s.files eid = none) : s.remove eid = (s, .NOENT) := by
  rw [extent_server.remove, h]

theorem Paired.remove (hp : Paired s) (eid : ℕ) : Paired (s.remove eid).1 := by
  cases h : s.files eid with
  | none =>
    rw [remove_none h]
    exact hp
  | some buf =>
    rw [remove_some hp h]
    intro id
    by_cases hid : id = eid
    · subst hid
      simp
    · simpa [hid] using hp id

end Server

/-! ## What each side answers -/

section Answers

variable {c : extent_client} {s : extent_server} {a : Call}

/-- A `get` that misses succeeds iff the server stores the extent. -/
theorem result_get_miss (hp : Paired s) (hop : a.op = .get) (hf : c.cacheFiles a.eid = none) :
    result (runCall c s a).2.2
      = match s.files a.eid with
        | some buf => .get .OK buf
        | none => .get .IOERR [] := by
  rw [runCall_get_miss hop hf]
  cases h : s.files a.eid with
  | some buf =>
    have hx : ((s.get a.eid (a.now 1)).1).fileAttrs a.eid
        = some { s.attrAt a.eid with atime := a.now 1 } := by
      rw [get_some h]
      exact Function.update_self ..
    simp only [result, getattr_some hx]
    rw [get_some h]
  | none =>
    rw [get_none h]
    simp only [result, getattr_none ((hp a.eid).mp h)]

theorem direct_get (hop : a.op = .get) :
    (directCall s a).2
      = match s.files a.eid with
        | some buf => .get .OK buf
        | none => .get .NOENT [] := by
  simp only [directCall, hop]
  cases h : s.files a.eid with
  | some buf => rw [get_some h]
  | none => rw [get_none h]

/-- A `getattr` that misses succeeds iff the server stores the extent. -/
theorem result_getattr_miss (hp : Paired s) (hop : a.op = .getattr)
    (hx : c.cacheAttrs a.eid = none) :
    succeeds (result (runCall c s a).2.2) = (s.files a.eid).isSome
      ∧ contentOf (result (runCall c s a).2.2) = none := by
  rw [runCall_getattr_miss hop hx]
  cases h : s.files a.eid with
  | some buf =>
    obtain ⟨x, hx⟩ := hp.attrs h
    rw [getattr_some hx]
    exact ⟨rfl, rfl⟩
  | none =>
    rw [getattr_none ((hp a.eid).mp h)]
    exact ⟨rfl, rfl⟩

theorem direct_getattr (hp : Paired s) (hop : a.op = .getattr) :
    succeeds (directCall s a).2 = (s.files a.eid).isSome
      ∧ contentOf (directCall s a).2 = none := by
  simp only [directCall, hop]
  cases h : s.files a.eid with
  | some buf =>
    obtain ⟨x, hx⟩ := hp.attrs h
    rw [getattr_some hx]
    exact ⟨rfl, rfl⟩
  | none =>
    rw [getattr_none ((hp a.eid).mp h)]
    exact ⟨rfl, rfl⟩

theorem direct_remove (hp : Paired s) (hop : a.op = .remove) :
    succeeds (directCall s a).2 = (s.files a.eid).isSome
      ∧ contentOf (directCall s a).2 = none := by
  simp only [directCall, hop]
  cases h : s.files a.eid with
  | some buf =>
    rw [remove_some hp h]
    exact ⟨rfl, rfl⟩
  | none =>
    rw [remove_none h]
    exact ⟨rfl, rfl⟩

theorem result_flush (hop : a.op = .flush) : result (runCall c s a).2.2 = .flush := by
  cases hf : c.cacheFiles a.eid with
  | some f =>
    obtain ⟨buf, dirty⟩ := f
    cases dirty with
    | true => rw [runCall_flush_dirty hop hf, result]
    | false => rw [runCall_flush_clean hop hf, result]
  | none =>
    cases hx : c.cacheAttrs a.eid with
    | some x => rw [runCall_flush_attr hop hf hx, result]
    | none => rw [runCall_flush_unknown hop hf hx, result]

end Answers

/-! ## The invariant -/

/-- The caches at `eid`, against the direct server and the accesses so far. -/
structure Slice (server : extent_server) (st : Session) (eid : ℕ) : Prop where
  /-- What is cached of an existing extent is its content. -/
  kept : ∀ buf f, st.direct.files eid = some buf → st.client.cacheFiles eid = some f →
    f.fileExt = buf
  /-- An existing extent that is not cached is the one the server has stored. -/
  unread : ∀ buf, st.direct.files eid = some buf → st.client.cacheFiles eid = none →
    server.files eid = some buf
  attrs : st.client.cacheFiles eid ≠ none → st.client.cacheAttrs eid ≠ none
  /-- A missing extent is in a cache only after an access that should have failed. -/
  missedGet : st.direct.files eid = none →
    (st.client.cacheFiles eid = none ↔ Op.get ∉ accesses eid st.log)
  missed : st.direct.files eid = none →
    (st.client.cacheAttrs eid = none ↔ accesses eid st.log = [])

structure Inv (server : extent_server) (st : Session) : Prop where
  files : st.server.files = server.files
  paired : Paired st.server
  direct : Paired st.direct
  slice : ∀ eid, Slice server st eid

theorem inv_init {server : extent_server} (h : Paired server) : Inv server (.init server) where
  files := rfl
  paired := h
  direct := h
  slice := by
    intro eid
    refine ⟨fun _ _ _ hf => ?_, fun buf hbuf _ => hbuf, fun hf => ?_, fun _ => ?_, fun _ => ?_⟩
    · cases hf
    · exact absurd rfl hf
    · exact ⟨fun _ => List.not_mem_nil, fun _ => rfl⟩
    · exact ⟨fun _ => rfl, fun _ => rfl⟩

/-! ## Agreement at one call -/

section AgreeIff

variable {server : extent_server} {st : Session} {a : Call}

/-- For a missing extent a `get` fails as it should only if neither the cache nor the server
still has something of it. -/
theorem agree_get (hinv : Inv server st) (hop : a.op = .get) :
    Agree st a ↔ Sound server st a := by
  have hsl := hinv.slice a.eid
  unfold Agree Sound
  rw [direct_get hop, hop]
  cases ht : st.direct.files a.eid with
  | some buf =>
    cases hf : st.client.cacheFiles a.eid with
    | some f =>
      have hbuf := hsl.kept buf f ht hf
      rw [runCall_get_hit hop hf]
      simp [result, hbuf]
    | none =>
      have hserver := hsl.unread buf ht hf
      rw [result_get_miss hinv.paired hop hf, hinv.files, hserver]
      simp
  | none =>
    have hmissed := hsl.missedGet ht
    cases hf : st.client.cacheFiles a.eid with
    | some f =>
      rw [runCall_get_hit hop hf]
      rw [hf] at hmissed
      simp only [reduceCtorEq, false_iff, not_not] at hmissed
      simp [result, succeeds, hmissed]
    | none =>
      rw [result_get_miss hinv.paired hop hf, hinv.files]
      have hnot := hmissed.mp hf
      cases hserver : server.files a.eid with
      | some buf => simp [succeeds]
      | none => simp [succeeds, contentOf, hnot]

theorem agree_getattr (hinv : Inv server st) (hop : a.op = .getattr) :
    Agree st a ↔ Sound server st a := by
  have hsl := hinv.slice a.eid
  unfold Agree Sound
  rw [(direct_getattr hinv.direct hop).1, (direct_getattr hinv.direct hop).2, hop]
  cases hx : st.client.cacheAttrs a.eid with
  | some x =>
    rw [runCall_getattr_hit hop hx]
    cases ht : st.direct.files a.eid with
    | some buf => simp [result, succeeds, contentOf]
    | none =>
      have hmissed := hsl.missed ht
      rw [hx] at hmissed
      simp only [reduceCtorEq, false_iff] at hmissed
      simp [result, succeeds, hmissed]
  | none =>
    have hmiss := result_getattr_miss hinv.paired hop hx
    rw [hmiss.1, hmiss.2, hinv.files]
    cases ht : st.direct.files a.eid with
    | some buf =>
      -- the attributes come with the content, so the content is not cached either
      have hf : st.client.cacheFiles a.eid = none := by
        by_contra hf
        exact hsl.attrs hf hx
      rw [hsl.unread buf ht hf]
      simp
    | none =>
      have hnil := (hsl.missed ht).mp hx
      cases hserver : server.files a.eid with
      | some buf => simp
      | none => simp [hnil]

/-- One lemma for each operation that may disagree. -/
theorem agree_iff_sound (hinv : Inv server st) : Agree st a ↔ Sound server st a := by
  cases hop : a.op with
  | get => exact agree_get hinv hop
  | getattr => exact agree_getattr hinv hop
  | put buf =>
    obtain ⟨x, -, hx⟩ := runCall_put st.client st.server hop
    unfold Agree Sound
    simp [hx, hop, result, directCall]
  | remove =>
    unfold Agree Sound
    rw [runCall_remove hop, (direct_remove hinv.direct hop).1,
      (direct_remove hinv.direct hop).2, hop]
    cases ht : st.direct.files a.eid with
    | some buf => simp [result, succeeds, contentOf]
    | none => simp [result, succeeds]
  | flush =>
    unfold Agree Sound
    rw [result_flush hop]
    simp [hop, directCall]

end AgreeIff

/-! ## One step -/

/-- The session after a call. -/
def next (st : Session) (a : Call) : Session :=
  ⟨(runCall st.client st.server a).1, (runCall st.client st.server a).2.1,
    (directCall st.direct a).1, (a.eid, a.op) :: st.log⟩

theorem step_eq_some {st st' : Session} {a : Call} (hs : step st a = some st') :
    a.op ≠ .flush ∧ st' = next st a := by
  unfold step at hs
  split at hs
  · cases hs
  · next hop => exact ⟨hop, (Option.some.inj hs).symm⟩

section Step

variable {server : extent_server} {st : Session} {a : Call}

theorem directCall_files_of_ne (t : extent_server) {id : ℕ} (hne : id ≠ a.eid) :
    (directCall t a).1.files id = t.files id := by
  unfold directCall
  split
  · exact congrFun (get_files t a.eid (a.now 0)) id
  · rfl
  · exact Function.update_of_ne hne ..
  · exact ((same_refl id .new t).remove hne).files
  · rfl

theorem directCall_paired {t : extent_server} (hp : Paired t) : Paired (directCall t a).1 := by
  unfold directCall
  split
  · exact hp.get _ _
  · exact hp
  · exact hp.put _ _ _
  · exact hp.remove _
  · exact hp

/-- Without a `flush` the server only sees reads. -/
theorem runCall_server {c : extent_client} {s : extent_server} (hp : Paired s)
    (hop : a.op ≠ .flush) :
    (runCall c s a).2.1.files = s.files ∧ Paired (runCall c s a).2.1 := by
  cases h : a.op with
  | get =>
    cases hf : c.cacheFiles a.eid with
    | some f =>
      rw [runCall_get_hit h hf]
      exact ⟨rfl, hp⟩
    | none =>
      rw [runCall_get_miss h hf]
      exact ⟨get_files s _ _, hp.get _ _⟩
  | getattr =>
    cases hx : c.cacheAttrs a.eid with
    | some x =>
      rw [runCall_getattr_hit h hx]
      exact ⟨rfl, hp⟩
    | none =>
      rw [runCall_getattr_miss h hx]
      exact ⟨rfl, hp⟩
  | put buf =>
    obtain ⟨x, -, hx⟩ := runCall_put c s h
    rw [hx]
    exact ⟨rfl, hp⟩
  | remove =>
    rw [runCall_remove h]
    exact ⟨rfl, hp⟩
  | flush => exact absurd h hop

/-- The other extents are as before. -/
theorem slice_of_ne {id : ℕ} (hsl : Slice server st id) (hne : id ≠ a.eid) :
    Slice server (next st a) id := by
  have hsame : Same id st.client (next st a).client st.server (next st a).server :=
    runCall_same a hne
  have hdirect : (next st a).direct.files id = st.direct.files id :=
    directCall_files_of_ne st.direct hne
  have hacc : accesses id (next st a).log = accesses id st.log := if_neg hne.symm
  constructor
  · rw [hdirect, hsame.cacheFiles]
    exact hsl.kept
  · rw [hdirect, hsame.cacheFiles]
    exact hsl.unread
  · rw [hsame.cacheFiles, hsame.cacheAttrs]
    exact hsl.attrs
  · rw [hdirect, hsame.cacheFiles, hacc]
    exact hsl.missedGet
  · rw [hdirect, hsame.cacheAttrs, hacc]
    exact hsl.missed

/-- An extent with content and attributes in the cache. -/
theorem slice_of_filled {st : Session} {eid : ℕ} {f : cacheFileEnt} {x : attr}
    (hf : st.client.cacheFiles eid = some f) (hx : st.client.cacheAttrs eid = some x)
    (hkept : ∀ buf, st.direct.files eid = some buf → f.fileExt = buf)
    (hmissed : st.direct.files eid = none → Op.get ∈ accesses eid st.log) :
    Slice server st eid := by
  constructor
  · intro buf f' hbuf hf'
    obtain rfl := Option.some.inj (hf.symm.trans hf')
    exact hkept buf hbuf
  · intro buf _ hnone
    cases hf.symm.trans hnone
  · intro _ hnone
    cases hx.symm.trans hnone
  · intro hnone
    rw [hf]
    simp [hmissed hnone]
  · intro hnone
    rw [hx]
    simp [List.ne_nil_of_mem (hmissed hnone)]

/-- On a miss a `get` caches what the server has, and an empty content if it has nothing. -/
theorem slice_get (hinv : Inv server st) (hop : a.op = .get) :
    Slice server (next st a) a.eid := by
  have hsl := hinv.slice a.eid
  have hdirect : (next st a).direct.files a.eid = st.direct.files a.eid := by
    simp only [next, directCall, hop]
    exact congrFun (get_files ..) _
  have hacc : Op.get ∈ accesses a.eid (next st a).log := by
    simp [next, accesses, hop]
  cases hf : st.client.cacheFiles a.eid with
  | some f =>
    have hnext : (next st a).client = _ := congrArg (·.1) (runCall_get_hit hop hf)
    refine slice_of_filled (congrFun (congrArg (·.cacheFiles) hnext) _ |>.trans hf)
      (congrArg (·.cacheAttrs a.eid) hnext |>.trans (setAttr_cacheAttrs ..)) ?_ fun _ => hacc
    intro buf hbuf
    exact hsl.kept buf f (hdirect ▸ hbuf) hf
  | none =>
    have hnext : (next st a).client = _ := congrArg (·.1) (runCall_get_miss hop hf)
    refine slice_of_filled (congrArg (·.cacheFiles a.eid) hnext |>.trans (setFile_cacheFiles ..))
      (congrArg (·.cacheAttrs a.eid) hnext |>.trans (setAttr_cacheAttrs ..)) ?_ fun _ => hacc
    intro buf hbuf
    have hserver : st.server.files a.eid = some buf := by
      rw [hinv.files]
      exact hsl.unread buf (hdirect ▸ hbuf) hf
    rw [get_some hserver]

theorem slice_getattr (hinv : Inv server st) (hop : a.op = .getattr) :
    Slice server (next st a) a.eid := by
  have hsl := hinv.slice a.eid
  have hdirect : (next st a).direct = st.direct := by
    simp only [next, directCall, hop]
  have hacc : accesses a.eid (next st a).log = .getattr :: accesses a.eid st.log := by
    simp [next, accesses, hop]
  have hclient : (next st a).client.cacheFiles = st.client.cacheFiles
      ∧ ∃ x, (next st a).client.cacheAttrs a.eid = some x := by
    cases hx : st.client.cacheAttrs a.eid with
    | some x =>
      have hnext : (next st a).client = _ := congrArg (·.1) (runCall_getattr_hit hop hx)
      rw [hnext]
      exact ⟨rfl, x, hx⟩
    | none =>
      have hnext : (next st a).client = _ := congrArg (·.1) (runCall_getattr_miss hop hx)
      rw [hnext]
      exact ⟨rfl, _, setAttr_cacheAttrs ..⟩
  obtain ⟨hfiles, x, hx⟩ := hclient
  constructor
  · rw [hdirect, hfiles]
    exact hsl.kept
  · rw [hdirect, hfiles]
    exact hsl.unread
  · intro _ hnone
    cases hx.symm.trans hnone
  · intro hnone
    rw [hdirect] at hnone
    rw [hfiles, hacc, hsl.missedGet hnone]
    simp
  · intro _
    rw [hx, hacc]
    simp

/-- A `put` leaves the cache and the direct server with the same content. -/
theorem slice_put {buf : Content} (hop : a.op = .put buf) : Slice server (next st a) a.eid := by
  obtain ⟨x, -, hput⟩ := runCall_put st.client st.server hop
  have hnext : (next st a).client = _ := congrArg (·.1) hput
  have hdirect : (next st a).direct.files a.eid = some buf := by
    simp only [next, directCall, hop]
    exact Function.update_self ..
  refine slice_of_filled (f := ⟨buf, true⟩) (x := x) ?_ ?_ ?_ ?_
  · rw [hnext]
    exact setFile_cacheFiles ..
  · rw [hnext]
    exact setAttr_cacheAttrs ..
  · intro buf' hbuf'
    exact Option.some.inj (hdirect.symm.trans hbuf')
  · intro hnone
    cases hdirect.symm.trans hnone

/-- A `remove` empties both caches, and the direct server loses the extent. -/
theorem slice_remove (hinv : Inv server st) (hop : a.op = .remove) :
    Slice server (next st a) a.eid := by
  have hnext : (next st a).client = _ := congrArg (·.1) (runCall_remove hop)
  have hfiles : (next st a).client.cacheFiles a.eid = none := by
    rw [hnext]
    exact erase_cacheFiles ..
  have hattrs : (next st a).client.cacheAttrs a.eid = none := by
    rw [hnext]
    exact erase_cacheAttrs ..
  have hdirect : (next st a).direct.files a.eid = none := by
    simp only [next, directCall, hop]
    cases ht : st.direct.files a.eid with
    | none =>
      rw [remove_none ht]
      exact ht
    | some buf =>
      rw [remove_some hinv.direct ht]
      exact Function.update_self ..
  have hacc : accesses a.eid (next st a).log = [] := by
    simp [next, accesses, hop]
  constructor
  · intro _ _ hsome
    cases hdirect.symm.trans hsome
  · intro _ hsome
    cases hdirect.symm.trans hsome
  · intro hsome
    exact absurd hfiles hsome
  · intro _
    rw [hfiles, hacc]
    simp
  · intro _
    rw [hattrs, hacc]
    simp

/-- **The invariant** holds after every call that is not a `flush`. -/
theorem step_inv {st' : Session} (hinv : Inv server st) (hs : step st a = some st') :
    Inv server st' := by
  obtain ⟨hop, rfl⟩ := step_eq_some hs
  obtain ⟨hfiles, hpaired⟩ := runCall_server (c := st.client) hinv.paired hop
  refine ⟨hfiles.trans hinv.files, hpaired, directCall_paired hinv.direct, fun id => ?_⟩
  by_cases hid : id = a.eid
  · subst hid
    cases h : a.op with
    | get => exact slice_get hinv h
    | getattr => exact slice_getattr hinv h
    | put buf => exact slice_put h
    | remove => exact slice_remove hinv h
    | flush => exact absurd h hop
  · exact slice_of_ne (hinv.slice id) hid

end Step

/-- **When a cached extent behaves like the server's.** After every sequence of calls
from empty caches, on any extents and over any initial content: the next call is
answered as the server alone would answer it exactly when it is sound. -/
theorem cached_as_direct_iff {m : ℕ → Option (Content × attr)} {as : List Call} {st : Session}
    (hrun : Steps.run step (.init (stored m)) as = some st) (a : Call) :
    Agree st a ↔ Sound (stored m) st a :=
  agree_iff_sound (Steps.run_inv_all (fun _ _ _ hinv hs => step_inv hinv hs)
    (inv_init (paired_stored m)) hrun)

/-- The root directory, empty. -/
def rootOnly : ℕ → Option (Content × attr) := fun id => if id = 1 then some ([], .zero) else none

/-- An extent is put, read and removed. -/
def putGetRemove : List Call := [at0 7 (.put ['x']), at0 7 .get, at0 7 .remove]

/-- The first access after the removal still agrees. -/
theorem cached_as_direct_removed :
    ∃ st, Steps.run step (.init (stored rootOnly)) putGetRemove = some st
      ∧ Sound (stored rootOnly) st (at0 7 .get) ∧ Agree st (at0 7 .get) := by
  have hex : ((Steps.run step (.init (stored rootOnly)) putGetRemove).map fun st =>
      accesses 7 st.log) = some [] := by
    decide
  obtain ⟨st, hst, hacc⟩ := Steps.exists_run hex
  have hsound : Sound (stored rootOnly) st (at0 7 .get) := by
    refine .inr ⟨by decide, ?_⟩
    rw [show (at0 7 .get).eid = 7 from rfl, hacc]
    exact List.not_mem_nil
  exact ⟨st, hst, hsound, (cached_as_direct_iff hst _).mpr hsound⟩

/-- What the two sides answer to `a` after the calls `as`. -/
def answers (as : List Call) (a : Call) : Option (Result × Result) :=
  (Steps.run step (.init (stored rootOnly)) as).map fun st =>
    (result (runCall st.client st.server a).2.2, (directCall st.direct a).2)

/-- The second `get` of an extent that does not exist succeeds, a `get` after the removal
of the root directory succeeds, and so does the removal of an extent that does not
exist; without a cache all three fail. -/
theorem cached_differs :
    answers [at0 7 .get] (at0 7 .get) = some (.get .OK [], .get .NOENT [])
      ∧ answers [at0 1 .remove] (at0 1 .get) = some (.get .OK [], .get .NOENT [])
      ∧ answers [] (at0 7 .remove) = some (.remove .OK, .remove .NOENT) := by
  decide

end Yfs.ExtentCached
