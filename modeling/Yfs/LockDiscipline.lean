/-
The lock discipline of the file system operations, on every path of every handler.

A path is any list of calls with any answers, so every status of the extent layer,
every text of a directory and every inum an entry may name is covered. Three checkers
read a path:

* `hold` keeps the locks that are held. It refuses the release of a lock that is not
  held and the access to an extent whose lock is not held; with `once` it also refuses
  to take a lock again, which in the lock client would wait for itself for ever.
* `check` keeps the same locks and the phase the handler is in: a lock is taken only
  while none has been given back.
* `watch` follows one directory: its lock, its first `get`, and that the lock is not
  given back before its `put`.

Each function of the source has one lemma for `check`, its `Leads` lemma, that says
which locks it starts and ends with, and callers use that lemma only. What `hold`
accepts follows, for it refuses no path that `check` accepts.
-/
import Yfs.FuseServer

set_option autoImplicit false

namespace Yfs.LockDiscipline

open Text Calls Calls.Prog Yfs.StringSplit Yfs.Dir Yfs.YfsClient Yfs.FuseServer

/-! ## The locks held along a path -/

/-- The locks held after a call; `none` if the call breaks the discipline. -/
def hold (once : Bool) (held : List ℕ) (ev : Ev) : Option (List ℕ) :=
  match ev.1 with
  | .acquire lid => if once = true ∧ lid ∈ held then none else some (lid :: held)
  | .release lid => if lid ∈ held then some (held.erase lid) else none
  | .get eid => if eid ∈ held then some held else none
  | .getattr eid => if eid ∈ held then some held else none
  | .put eid _ => if eid ∈ held then some held else none
  | .remove eid => if eid ∈ held then some held else none
  | .drawing => some held

/-- How often a path acquires and releases a lock. -/
def acquires (lid : ℕ) (tr : List Ev) : ℕ := tr.countP fun ev => ev.1 = .acquire lid
def releases (lid : ℕ) (tr : List Ev) : ℕ := tr.countP fun ev => ev.1 = .release lid

/-- One call moves the locks held by what it acquires and releases. -/
theorem hold_count {once : Bool} {held held' : List ℕ} {ev : Ev} (lid : ℕ)
    (h : hold once held ev = some held') :
    held.count lid + acquires lid [ev] = held'.count lid + releases lid [ev] := by
  obtain ⟨c, x⟩ := ev
  cases c with
  | acquire l =>
    simp only [hold] at h
    split at h
    · cases h
    · obtain rfl := Option.some.inj h
      simp [acquires, releases, List.count_cons]
  | release l =>
    simp only [hold] at h
    split at h
    · next hl =>
      obtain rfl := Option.some.inj h
      have hpos : 0 < held.count l := List.count_pos_iff.mpr hl
      simp only [acquires, releases, List.countP_singleton, List.count_erase]
      by_cases hlid : l = lid
      · subst hlid
        simp
        omega
      · simp [hlid]
    · cases h
  | drawing =>
    obtain rfl := Option.some.inj h
    rfl
  | get eid | getattr eid | put eid buf | remove eid =>
    simp only [hold] at h
    split at h
    · obtain rfl := Option.some.inj h
      rfl
    · cases h

/-- Along a path: what is held at the end is what was held before and acquired, less
what was released. -/
theorem run_hold_count {once : Bool} {held held' : List ℕ} {tr : List Ev} (lid : ℕ)
    (h : Steps.run (hold once) held tr = some held') :
    held.count lid + acquires lid tr = held'.count lid + releases lid tr := by
  induction tr generalizing held with
  | nil =>
    obtain rfl := Option.some.inj h
    rfl
  | cons ev tr ih =>
    obtain ⟨held₁, hev, hrest⟩ := Steps.run_cons_eq_some.mp h
    have hone := hold_count lid hev
    have hmany := ih hrest
    have ha : acquires lid (ev :: tr) = acquires lid [ev] + acquires lid tr := by
      rw [acquires, ← List.singleton_append, List.countP_append]
      rfl
    have hr : releases lid (ev :: tr) = releases lid [ev] + releases lid tr := by
      rw [releases, ← List.singleton_append, List.countP_append]
      rfl
    omega

/-! ## The two phases -/

/-- The number of the lock or of the extent. -/
def slotOf : Call → ℕ
  | .acquire lid => lid
  | .release lid => lid
  | .get eid => eid
  | .getattr eid => eid
  | .put eid _ => eid
  | .remove eid => eid
  | .drawing => 0

/-- Calls to the extents. -/
def accesses : Call → Bool
  | .get _ => true
  | .getattr _ => true
  | .put _ _ => true
  | .remove _ => true
  | _ => false

/-- The locks a client holds, and whether it has begun to give them back. -/
structure Locks where
  held : List ℕ
  giving : Bool
  deriving DecidableEq, Repr

def Locks.free : Locks := ⟨[], false⟩

/-- Does a call give a lock back? -/
def givesBack : Call → Bool
  | .release _ => true
  | _ => false

/-- The locks after a call; `none` if the call breaks the two phases, or takes a lock
that may not be taken on top of those held. -/
def phased (may : ℕ → ℕ → Bool) (l : Locks) : Call → Option Locks
  | .acquire lid =>
    if l.giving = false ∧ (∀ h ∈ l.held, may h lid = true) then some ⟨lid :: l.held, false⟩
    else none
  | .release lid =>
    if lid ∈ l.held then some ⟨l.held.erase lid, !(l.held.erase lid).isEmpty⟩ else none
  | .get eid => if l.giving = false ∧ eid ∈ l.held then some l else none
  | .getattr eid => if l.giving = false ∧ eid ∈ l.held then some l else none
  | .put eid _ => if l.giving = false ∧ eid ∈ l.held then some l else none
  | .remove eid => if l.giving = false ∧ eid ∈ l.held then some l else none
  | .drawing => if l.giving = false then some l else none

/-- **What a call does to the locks of its client.** -/
theorem phased_cases {may : ℕ → ℕ → Bool} {l l' : Locks} {c : Call}
    (h : phased may l c = some l') :
    (∃ lid, c = .acquire lid ∧ l.giving = false ∧ (∀ i ∈ l.held, may i lid = true)
        ∧ l' = ⟨lid :: l.held, false⟩)
      ∨ (∃ lid, c = .release lid ∧ lid ∈ l.held
        ∧ l' = ⟨l.held.erase lid, !(l.held.erase lid).isEmpty⟩)
      ∨ ((accesses c = true → slotOf c ∈ l.held) ∧ givesBack c = false ∧ (∀ lid, c ≠ .acquire lid)
        ∧ l.giving = false ∧ l' = l) := by
  cases c with
  | acquire lid =>
    simp only [phased] at h
    split at h
    · next hok => exact .inl ⟨lid, rfl, hok.1, hok.2, (Option.some.inj h).symm⟩
    · cases h
  | release lid =>
    simp only [phased] at h
    split at h
    · next hmem => exact .inr (.inl ⟨lid, rfl, hmem, (Option.some.inj h).symm⟩)
    · cases h
  | get eid | getattr eid | put eid buf | remove eid =>
    simp only [phased] at h
    split at h
    · next hok =>
      exact .inr (.inr ⟨fun _ => hok.2, rfl, fun _ => Call.noConfusion, hok.1,
        (Option.some.inj h).symm⟩)
    · cases h
  | drawing =>
    simp only [phased] at h
    split at h
    · next hok =>
      refine .inr (.inr ⟨fun hacc => ?_, rfl, fun _ => Call.noConfusion, hok,
        (Option.some.inj h).symm⟩)
      cases hacc
    · cases h

/-! ## The programs keep to the two phases -/

/-- The checker of a path. -/
def check (may : ℕ → ℕ → Bool) (l : Locks) (ev : Ev) : Option Locks := phased may l ev.1

section Leads

variable {may : ℕ → ℕ → Bool} {α β : Type} {l l' l'' : Locks} {held : List ℕ}

/-- Every path of `p` keeps the two phases and leads from locks `l` to locks `l'`. -/
def Leads (may : ℕ → ℕ → Bool) (l l' : Locks) (p : FsProg α) : Prop :=
  Keeps (check may) (fun x _ => x = l') l p

/-- A program that has returned makes no call, so its locks stay. -/
theorem leads_ret (a : α) : Leads may l l (ret a) := rfl

/-- The rule for sequencing. What comes second is checked from the locks the first part
leaves, whatever it has returned. -/
theorem Leads.bind {p : FsProg α} {f : α → FsProg β} {Q : Locks → β → Prop}
    (h : Leads may l l' p) (hf : ∀ a, Keeps (check may) Q l' (f a)) :
    Keeps (check may) Q l (p.bind f) := by
  refine Keeps.bind h ?_
  rintro _ a rfl
  exact hf a

/-- A lock is taken on top of those held, before any is given back. -/
theorem acquire_leads {lid : ℕ} (h : ∀ i ∈ held, may i lid = true) :
    Leads may ⟨held, false⟩ ⟨lid :: held, false⟩ (acquire lid) := by
  refine keeps_call (fun _ => ?_) fun _ => keeps_ret rfl
  simp only [check, phased, if_pos (And.intro trivial h)]

/-- Accessing an extent whose lock is held. -/
theorem access_leads {c : Call} (hc : givesBack c = false) (hacq : ∀ lid, c ≠ .acquire lid)
    (h : slotOf c ∈ held) : Leads may ⟨held, false⟩ ⟨held, false⟩ (call c ret) := by
  refine keeps_call (fun _ => ?_) fun _ => keeps_ret rfl
  cases c with
  | acquire lid => exact absurd rfl (hacq lid)
  | release lid => cases hc
  | get eid | getattr eid | put eid buf | remove eid => exact if_pos ⟨rfl, h⟩
  | drawing => rfl

/-- The four calls on extents keep the locks; each needs that of its own extent. -/
theorem ec_get_leads {eid : ℕ} (h : eid ∈ held) :
    Leads may ⟨held, false⟩ ⟨held, false⟩ (ec_get eid) :=
  access_leads rfl (fun _ => Call.noConfusion) h

theorem ec_getattr_leads {eid : ℕ} (h : eid ∈ held) :
    Leads may ⟨held, false⟩ ⟨held, false⟩ (ec_getattr eid) :=
  access_leads rfl (fun _ => Call.noConfusion) h

theorem ec_put_leads {eid : ℕ} (h : eid ∈ held) (buf : Str) :
    Leads may ⟨held, false⟩ ⟨held, false⟩ (ec_put eid buf) :=
  access_leads rfl (fun _ => Call.noConfusion) h

theorem ec_remove_leads {eid : ℕ} (h : eid ∈ held) :
    Leads may ⟨held, false⟩ ⟨held, false⟩ (ec_remove eid) :=
  access_leads rfl (fun _ => Call.noConfusion) h

/-- The last lock is given back: the transaction is over, and the next one may begin. -/
theorem release_leads (lid : ℕ) (g : Bool) : Leads may ⟨[lid], g⟩ .free (release lid) := by
  refine keeps_call (fun _ => ?_) fun _ => keeps_ret rfl
  simp [check, phased, Locks.free]

/-- The first of two locks is given back. -/
theorem release_first_leads (fileInum dirInum : ℕ) :
    Leads may ⟨[fileInum, dirInum], false⟩ ⟨[dirInum], true⟩ (release fileInum) := by
  refine keeps_call (fun _ => ?_) fun _ => keeps_ret rfl
  simp [check, phased]

/-- How almost every function ends. -/
theorem release_ret_leads (lid : ℕ) (g : Bool) (a : α) :
    Leads may ⟨[lid], g⟩ .free ((release lid).bind fun _ => ret a) :=
  (release_leads lid g).bind fun _ => leads_ret a

/-- A function that takes a lock and makes its first call under it. -/
theorem locked_leads {lid : ℕ} {p : FsProg α} {f : α → FsProg β} {Q : Locks → β → Prop}
    (hp : Leads may ⟨[lid], false⟩ ⟨[lid], false⟩ p)
    (hf : ∀ a, Keeps (check may) Q ⟨[lid], false⟩ (f a)) :
    Keeps (check may) Q .free ((acquire lid).bind fun _ => p.bind f) :=
  (acquire_leads (fun _ hi => by cases hi)).bind fun _ => hp.bind hf

/-! ### The functions of `yfs_client` -/

/-- The functions that read or write one extent take its lock, use it and give it back, on the
paths where the extent cannot be read as well. -/
theorem getfile_leads (inum : ℕ) (fin : fileinfo) : Leads may .free .free (getfile inum fin) :=
  locked_leads (ec_getattr_leads List.mem_cons_self) fun _ => release_ret_leads inum false _

theorem getdir_leads (inum : ℕ) (din : dirinfo) : Leads may .free .free (getdir inum din) :=
  locked_leads (ec_getattr_leads List.mem_cons_self) fun _ => release_ret_leads inum false _

theorem readDir_leads (dirInum junk : ℕ) : Leads may .free .free (readDir dirInum junk) :=
  locked_leads (ec_get_leads List.mem_cons_self) fun _ => release_ret_leads dirInum false _

theorem readFile_leads (ino off size : ℕ) (buf : Str) :
    Leads may .free .free (readFile ino off size buf) :=
  locked_leads (ec_get_leads List.mem_cons_self) fun _ => release_ret_leads ino false _

/-- `writeFile` and `setSize`: the `put` is made under the lock of the `get`. -/
theorem rewrite_leads (ino : ℕ) (f : Str → Str) : Leads may .free .free (rewrite ino f) := by
  refine locked_leads (ec_get_leads List.mem_cons_self) fun r => ?_
  have hput : Leads may ⟨[ino], false⟩ ⟨[ino], false⟩ (rewrite_put ino f r) := by
    unfold rewrite_put
    split
    · exact (ec_put_leads List.mem_cons_self _).bind fun _ => leads_ret _
    · exact leads_ret _
  exact hput.bind fun _ => release_ret_leads ino false _

/-- As the whole operation, `lookup` gives the lock back on both of its paths. -/
theorem lookup_single_leads (name : Str) (parent child : ℕ) :
    Leads may .free .free (lookup name parent child true) := by
  refine locked_leads (ec_get_leads List.mem_cons_self) fun r => ?_
  split
  · exact release_ret_leads parent false _
  · exact release_ret_leads parent false _

/-- `lookup` keeps the lock when the directory was read and the caller goes on. -/
theorem lookup_bind_leads {name : Str} {parent child : ℕ} {f : xxstatus × Bool × ℕ → FsProg β}
    (hok : ∀ r, r.1 = .OK → Leads may ⟨[parent], false⟩ .free (f r))
    (hfail : ∀ r, r.1 ≠ .OK → Leads may .free .free (f r)) :
    Leads may .free .free ((lookup name parent child false).bind f) := by
  refine keeps_bind (locked_leads (ec_get_leads List.mem_cons_self) fun r => ?_)
  split
  · exact (release_leads parent false).bind fun _ => hfail _ xxstatus.noConfusion
  · exact hok _ rfl

/-- What `addDirent` and `unlink` share: a second lock on top of the directory's, and
both given back at the end. -/
theorem second_lock_leads {dirInum fileInum : ℕ} (h : may dirInum fileInum = true)
    {p : Extent.xxstatus × Str → FsProg xxstatus}
    (hp : ∀ r, Leads may ⟨[fileInum, dirInum], false⟩ ⟨[fileInum, dirInum], false⟩ (p r)) :
    Leads may ⟨[dirInum], false⟩ .free
      ((acquire fileInum).bind fun _ => (ec_get dirInum).bind fun r => (p r).bind fun a =>
        (release fileInum).bind fun _ => (release dirInum).bind fun _ => ret a) := by
  have hmay : ∀ i ∈ [dirInum], may i fileInum = true := fun i hi => by
    rw [List.mem_singleton.mp hi]
    exact h
  refine (acquire_leads hmay).bind fun _ => ?_
  refine (ec_get_leads (List.mem_cons_of_mem _ List.mem_cons_self)).bind fun r => ?_
  refine (hp r).bind fun a => ?_
  exact (release_first_leads fileInum dirInum).bind fun _ => release_ret_leads dirInum true a

/-- `addDirent` gives back a lock that `lookup` has taken. When the directory cannot be put
the new extent is not put either, and both locks go back all the same. -/
theorem addDirent_leads {dirInum fileInum : ℕ} (h : may dirInum fileInum = true) (name : Str) :
    Leads may ⟨[dirInum], false⟩ .free (addDirent dirInum fileInum name) := by
  refine second_lock_leads h fun r => ?_
  unfold addDirent_puts
  split
  · refine (ec_put_leads (List.mem_cons_of_mem _ List.mem_cons_self) _).bind fun r₁ => ?_
    split
    · exact (ec_put_leads List.mem_cons_self _).bind fun _ => leads_ret _
    · exact leads_ret _
  · exact leads_ret _

/-- The same calls as `addDirent`, with a `remove` at the end. -/
theorem unlink_leads {dirInum fileInum : ℕ} (h : may dirInum fileInum = true) (name : Str) :
    Leads may ⟨[dirInum], false⟩ .free (unlink dirInum fileInum name) := by
  refine second_lock_leads h fun r => ?_
  unfold unlink_puts
  split
  · refine (ec_put_leads (List.mem_cons_of_mem _ List.mem_cons_self) _).bind fun r₁ => ?_
    split
    · exact (ec_remove_leads List.mem_cons_self).bind fun _ => leads_ret _
    · exact leads_ret _
  · exact leads_ret _

/-! ### The handlers -/

theorem getattr_leads (inum : ℕ) : Leads may .free .free (FuseServer.getattr inum) := by
  unfold FuseServer.getattr
  split
  · refine (getfile_leads inum _).bind fun r => ?_
    split
    · exact leads_ret _
    · exact leads_ret _
  · refine (getdir_leads inum _).bind fun r => ?_
    split
    · exact leads_ret _
    · exact leads_ret _

/-- `create` and `mkdir` are two transactions: the lookup with the new entry, and the
attributes of the new file. A loop over `random()` that never ends keeps the lock of the
directory. -/
theorem adding_leads {parent : ℕ} (name : Str) {draws : List ℕ} (ino : ℕ) {inumOf : ℕ → ℕ}
    (h : ∀ drawn, drawIno draws = some drawn → may parent (inumOf drawn) = true)
    (exist failed : α) (lost : xxstatus → α) (ok : ℕ → xxstatus × stat → α) :
    Leads may .free .free (adding parent name draws ino inumOf exist failed lost ok) := by
  refine lookup_bind_leads (fun r hr => ?_) fun r hr => ?_
  · rw [if_pos hr]
    split
    · exact release_ret_leads parent false _
    · cases hdraw : drawIno draws with
      | none => exact fun x => nomatch x
      | some drawn =>
        refine (addDirent_leads (h drawn hdraw) name).bind fun r' => ?_
        split
        · exact (getattr_leads _).bind fun _ => leads_ret _
        · exact leads_ret _
  · rw [if_neg hr]
    exact leads_ret _

theorem createhelper_leads {parent : ℕ} (name : Str) {draws : List ℕ} (ino : ℕ)
    (h : ∀ drawn, drawIno draws = some drawn → may parent (fileIno drawn) = true) :
    Leads may .free .free (fuseserver_createhelper parent name draws ino) := by
  rw [createhelper_eq]
  exact adding_leads name ino h _ _ _ _

/-- Only an entry for a file leads to a second lock. -/
theorem fuseserver_unlink_leads {parent : ℕ} (name : Str) (ino : ℕ)
    (h : ∀ child, isfile child = true → may parent child = true) :
    Leads may .free .free (fuseserver_unlink parent name ino) := by
  refine lookup_bind_leads (fun r hr => ?_) fun r hr => ?_
  · rw [if_pos hr]
    split
    · split
      · next hfile => exact (unlink_leads (h _ hfile) name).bind fun _ => leads_ret _
      · exact release_ret_leads parent false _
    · exact release_ret_leads parent false _
  · rw [if_neg hr]
    exact leads_ret _

/-- A request takes its second lock, if any, as `may` allows. -/
def Allowed (may : ℕ → ℕ → Bool) : Request → Prop
  | .create parent _ draws _ => ∀ drawn, drawIno draws = some drawn → may parent (fileIno drawn)
  | .mknod parent _ draws _ => ∀ drawn, drawIno draws = some drawn → may parent (fileIno drawn)
  | .mkdir parent _ draws _ => ∀ drawn, drawIno draws = some drawn → may parent (dirIno drawn)
  | .unlink parent _ _ => ∀ child, isfile child = true → may parent child
  | _ => True

/-- **Every handler keeps the two phases**, on all paths, and has no lock when it returns. -/
theorem handler_leads {q : Request} (h : Allowed may q) : Leads may .free .free q.handler := by
  cases q with
  | getattr ino => exact (getattr_leads ino).bind fun _ => leads_ret _
  | setattr ino st_size to_set =>
    simp only [Request.handler, fuseserver_setattr]
    split
    · refine (rewrite_leads ino _).bind fun r => ?_
      split
      · exact (getattr_leads ino).bind fun _ => leads_ret _
      · exact leads_ret _
    · exact leads_ret _
  | read ino size off => exact (readFile_leads ino _ _ _).bind fun _ => leads_ret _
  | write ino buf size off => exact (rewrite_leads ino _).bind fun _ => leads_ret _
  | create parent name draws ino | mknod parent name draws ino =>
    exact (createhelper_leads name ino h).bind fun _ => leads_ret _
  | lookup parent name ino =>
    refine (lookup_single_leads name parent ino).bind fun r => ?_
    split
    · exact leads_ret _
    · split
      · exact (getattr_leads _).bind fun _ => leads_ret _
      · exact leads_ret _
  | readdir ino size off junk =>
    simp only [Request.handler, fuseserver_readdir]
    split
    · exact (readDir_leads ino junk).bind fun _ => leads_ret _
    · exact leads_ret _
  | mkdir parent name draws ino =>
    rw [Request.handler, mkdir_eq]
    exact adding_leads name ino h _ _ _ _
  | unlink parent name ino => exact fuseserver_unlink_leads name ino h

end Leads

/-! ## The locks held, again -/

/-- The drawn inum is not the parent's, and the parent of an unlink is a directory. -/
def NotItself : Request → Prop
  | .create parent _ draws _ => ∀ drawn, drawIno draws = some drawn → fileIno drawn ≠ parent
  | .mknod parent _ draws _ => ∀ drawn, drawIno draws = some drawn → fileIno drawn ≠ parent
  | .mkdir parent _ draws _ => ∀ drawn, drawIno draws = some drawn → dirIno drawn ≠ parent
  | .unlink parent _ _ => isfile parent = false
  | _ => True

/-- Every path of `p` from `held` on keeps the discipline and ends with `held` again. -/
def Restores (once : Bool) (held : List ℕ) {α : Type} (p : FsProg α) : Prop :=
  Keeps (hold once) (fun held' _ => held' = held) held p

/-- What keeps the two phases keeps the discipline, with the same locks held. No lock may be
taken on top of itself where `once` forbids it. -/
theorem hold_of_check {once : Bool} {may : ℕ → ℕ → Bool} (hmay : once = true → ∀ i, may i i = false)
    {l l' : Locks} {ev : Ev} (h : check may l ev = some l') :
    hold once l.held ev = some l'.held := by
  obtain ⟨c, x⟩ := ev
  have h : phased may l c = some l' := h
  obtain ⟨lid, rfl, -, hall, rfl⟩ | ⟨lid, rfl, hmem, rfl⟩ | ⟨hacc, hgives, hacq, -, rfl⟩ :=
    phased_cases h
  · refine if_neg ?_
    rintro ⟨honce, hmem⟩
    exact Bool.noConfusion ((hmay honce lid).symm.trans (hall lid hmem))
  · exact if_pos hmem
  · cases c with
    | acquire lid => exact absurd rfl (hacq lid)
    | release lid => cases hgives
    | get eid | getattr eid | put eid buf | remove eid => exact if_pos (hacc rfl)
    | drawing => rfl

/-- **Every handler** gives back what it takes, and takes no lock twice when the inums
allow it: it keeps the two phases, with a rule for second locks that forbids a lock on top
of itself exactly where `once` does. -/
theorem handler_restores (q : Request) {once : Bool} (h : once = true → NotItself q) :
    Restores once [] q.handler := by
  have hallowed : Allowed (fun i j => !(once && i == j)) q := by
    cases once with
    | false =>
      cases q with
      | create _ _ _ _ | mknod _ _ _ _ | mkdir _ _ _ _ | unlink _ _ _ => exact fun _ _ => rfl
      | _ => trivial
    | true =>
      have hself := h rfl
      cases q with
      | create parent _ draws _ | mknod parent _ draws _ | mkdir parent _ draws _ =>
        intro drawn hdrawn
        simpa using (hself drawn hdrawn).symm
      | unlink parent name ino =>
        -- a file is never its own directory
        intro child hfile
        have hne : parent ≠ child := by
          rintro rfl
          rw [show isfile parent = false from hself] at hfile
          cases hfile
        simpa using hne
      | _ => trivial
  refine (handler_leads hallowed).follow Locks.held (hold_of_check fun honce i => ?_) ?_
  · simp [honce]
  · rintro _ _ rfl
    rfl

/-! ## From the lookup to the update of a directory -/

/-- Where an operation stands with respect to its directory. -/
inductive Phase where
  | start
  /-- The lock is taken. -/
  | taken
  /-- The directory has been read and the lock kept since. -/
  | looked
  /-- The lock has been given back. -/
  | released
  deriving DecidableEq, Repr

/-- One call of an operation on directory `parent`: first the lock, then the lookup,
and no `put` of the directory once the lock is given back. -/
def watch (parent : ℕ) (ph : Phase) (ev : Ev) : Option Phase :=
  match ph with
  | .start => if ev.1 = .acquire parent then some .taken else none
  | .taken => if ev.1 = .get parent then some .looked else none
  | .looked => if ev.1 = .release parent then some .released else some .looked
  | .released =>
    match ev.1 with
    | .put eid _ => if eid = parent then none else some .released
    | _ => some .released

section Watch

variable {parent : ℕ}

/-- Once given back, the lock of the directory is not watched for again. -/
theorem watch_released {ph : Phase} {tr : List Ev}
    (h : Steps.run (watch parent) .released tr = some ph) : ph = .released := by
  refine Steps.run_inv_all (P := fun ph => ph = .released) ?_ rfl h
  rintro _ ev s' rfl hs
  simp only [watch] at hs
  split at hs
  · split at hs
    · cases hs
    · exact (Option.some.inj hs).symm
  · exact (Option.some.inj hs).symm

/-- While the phase is `looked` the lock has not been given back. -/
theorem not_released_of_looked {tr : List Ev}
    (h : Steps.run (watch parent) .looked tr = some .looked) :
    ∀ ev ∈ tr, ev.1 ≠ .release parent := by
  induction tr with
  | nil => simp
  | cons ev tr ih =>
    obtain ⟨ph, hev, hrest⟩ := Steps.run_cons_eq_some.mp h
    simp only [watch] at hev
    split at hev
    · obtain rfl := Option.some.inj hev
      cases watch_released hrest
    · next hne =>
      obtain rfl := Option.some.inj hev
      intro ev' hmem
      rcases List.mem_cons.mp hmem with rfl | hmem
      · exact hne
      · exact ih hrest ev' hmem

theorem some_of_ite {α : Type} {c : Prop} [Decidable c] {a b : α}
    (h : (if c then some a else none) = some b) : c ∧ b = a := by
  split at h
  · next hc => exact ⟨hc, (Option.some.inj h).symm⟩
  · cases h

/-- A path that reaches `looked` starts with the lock and the lookup and keeps the lock. -/
theorem path_to_looked {tr : List Ev} (h : Steps.run (watch parent) .start tr = some .looked) :
    ∃ x y mid, tr = ⟨.acquire parent, x⟩ :: ⟨.get parent, y⟩ :: mid
      ∧ ∀ ev ∈ mid, ev.1 ≠ .release parent := by
  cases tr with
  | nil => cases h
  | cons ev₁ tr =>
    obtain ⟨ph₁, hev₁, hrest₁⟩ := Steps.run_cons_eq_some.mp h
    obtain ⟨h₁, rfl⟩ := some_of_ite hev₁
    cases tr with
    | nil => cases hrest₁
    | cons ev₂ tr =>
      obtain ⟨ph₂, hev₂, hrest₂⟩ := Steps.run_cons_eq_some.mp hrest₁
      obtain ⟨h₂, rfl⟩ := some_of_ite hev₂
      obtain ⟨c₁, x⟩ := ev₁
      obtain ⟨c₂, y⟩ := ev₂
      subst h₁ h₂
      exact ⟨x, y, tr, rfl, not_released_of_looked hrest₂⟩

/-- The update of the directory finds the phase `looked`. -/
theorem looked_of_put {pre post : List Ev} {ph : Phase} {buf : Str}
    {x : Call.Answer (.put parent buf)}
    (h : Steps.run (watch parent) .start (pre ++ ⟨.put parent buf, x⟩ :: post) = some ph) :
    Steps.run (watch parent) .start pre = some .looked := by
  rw [Steps.run_append] at h
  obtain ⟨ph', hpre, hput⟩ := Option.bind_eq_some_iff.mp h
  obtain ⟨ph'', hev, -⟩ := Steps.run_cons_eq_some.mp hput
  cases ph' with
  | looked => exact hpre
  | start | taken | released => simp [watch] at hev

/-! ### The functions that work on a directory -/

/-- Any call but the release of the directory's lock. -/
theorem looked_call {α : Type} {c : Call} {k : c.Answer → FsProg α} {Q : Phase → α → Prop}
    (hc : c ≠ .release parent) (hk : ∀ x, Keeps (watch parent) Q .looked (k x)) :
    Keeps (watch parent) Q .looked (call c k) :=
  keeps_call (fun _ => if_neg hc) hk

/-- Any call but the `put` of the directory. -/
theorem released_call {α : Type} {c : Call} {k : c.Answer → FsProg α} {Q : Phase → α → Prop}
    (hc : ∀ buf, c ≠ .put parent buf) (hk : ∀ x, Keeps (watch parent) Q .released (k x)) :
    Keeps (watch parent) Q .released (call c k) := by
  refine keeps_call (fun _ => ?_) hk
  cases c with
  | put eid buf =>
    have hne : eid ≠ parent := fun heq => hc buf (heq ▸ rfl)
    simp only [watch, if_neg hne]
  | acquire _ | release _ | get _ | getattr _ | remove _ | drawing => rfl

/-- Giving the lock back is what ends the phase `looked`. -/
theorem release_watched {α : Type} {f : Unit → FsProg α} {Q : Phase → α → Prop}
    (hf : Keeps (watch parent) Q .released (f ())) :
    Keeps (watch parent) Q .looked ((release parent).bind f) :=
  keeps_call (fun _ => if_pos rfl) fun _ => hf

/-- After `lookup` the directory's lock is kept, or given back for good. -/
theorem lookup_watched (name : Str) (child : ℕ) :
    Keeps (watch parent) (fun ph r => ph = if r.1 = .OK then .looked else .released) .start
      (lookup name parent child false) := by
  refine keeps_call (fun _ => if_pos rfl) fun _ => ?_
  refine keeps_call (fun _ => if_pos rfl) fun r => ?_
  show Keeps _ _ _ (if r.1 ≠ .OK then _ else _)
  split
  · exact release_watched (keeps_ret rfl)
  · exact keeps_ret rfl

/-- The ends of `addDirent` and `unlink`: two releases, the directory's second. With
`fileInum` the directory itself the first one already gives its lock back. -/
theorem releases_watched {α : Type} (fileInum : ℕ) (a : α) :
    Keeps (watch parent) (fun ph _ => ph = .released) .looked
      ((release fileInum).bind fun _ => (release parent).bind fun _ => ret a) := by
  by_cases heq : fileInum = parent
  · subst heq
    exact release_watched (released_call (fun _ => Call.noConfusion) fun _ => keeps_ret rfl)
  · have hne : Call.release fileInum ≠ .release parent := fun h => heq (Call.release.inj h)
    exact looked_call hne fun _ => release_watched (keeps_ret rfl)

/-- What `addDirent` and `unlink` share: everything up to the two releases is done
with the lock kept. -/
theorem second_lock_watched (fileInum : ℕ) {p : Extent.xxstatus × Str → FsProg xxstatus}
    (hp : ∀ r, Keeps (watch parent) (fun ph _ => ph = .looked) .looked (p r)) :
    Keeps (watch parent) (fun ph _ => ph = .released) .looked
      ((acquire fileInum).bind fun _ => (ec_get parent).bind fun r => (p r).bind fun a =>
        (release fileInum).bind fun _ => (release parent).bind fun _ => ret a) := by
  refine looked_call Call.noConfusion fun _ => ?_
  refine looked_call Call.noConfusion fun r => ?_
  refine (hp r).bind ?_
  rintro _ a rfl
  exact releases_watched fileInum a

/-- The `put` of the directory comes before the two releases, on every path that makes it. -/
theorem addDirent_watched (fileInum : ℕ) (name : Str) :
    Keeps (watch parent) (fun ph _ => ph = .released) .looked
      (addDirent parent fileInum name) := by
  refine second_lock_watched fileInum fun r => ?_
  unfold addDirent_puts
  split
  · refine looked_call Call.noConfusion fun (r₁ : Extent.xxstatus) => ?_
    show Keeps _ _ _ (if r₁ = .OK then _ else _)
    split
    · exact looked_call Call.noConfusion fun _ => keeps_ret rfl
    · exact keeps_ret rfl
  · exact keeps_ret rfl

theorem unlink_watched (fileInum : ℕ) (name : Str) :
    Keeps (watch parent) (fun ph _ => ph = .released) .looked (unlink parent fileInum name) := by
  refine second_lock_watched fileInum fun r => ?_
  unfold unlink_puts
  split
  · refine looked_call Call.noConfusion fun (r₁ : Extent.xxstatus) => ?_
    show Keeps _ _ _ (if r₁ = .OK then _ else _)
    split
    · exact looked_call Call.noConfusion fun _ => keeps_ret rfl
    · exact keeps_ret rfl
  · exact keeps_ret rfl

/-- `getfile` and `getdir` put nothing. -/
theorem locked_getattr_watched {α : Type} (inum : ℕ)
    {f : Extent.xxstatus × Extent.attr → FsProg α}
    (hf : ∀ r, Keeps (watch parent) (fun _ _ => True) .released (f r)) :
    Keeps (watch parent) (fun _ _ => True) .released
      ((acquire inum).bind fun _ => (ec_getattr inum).bind fun r => (release inum).bind fun _ =>
        f r) := by
  refine released_call (fun _ => Call.noConfusion) fun _ => ?_
  refine released_call (fun _ => Call.noConfusion) fun r => ?_
  exact released_call (fun _ => Call.noConfusion) fun _ => hf r

/-- The attributes are read under locks of their own, after the directory is done with. -/
theorem getattr_watched (inum : ℕ) :
    Keeps (watch parent) (fun _ _ => True) .released (getattr inum) := by
  unfold getattr
  split
  · refine locked_getattr_watched inum fun r => ?_
    show Keeps _ _ _ (if _ then _ else _)
    split <;> exact keeps_ret trivial
  · refine locked_getattr_watched inum fun r => ?_
    show Keeps _ _ _ (if _ then _ else _)
    split <;> exact keeps_ret trivial

/-- An operation that goes on after its lookup. -/
theorem lookup_bind_watched {α : Type} {name : Str} {ino : ℕ}
    {f : xxstatus × Bool × ℕ → FsProg α}
    (hok : ∀ r, r.1 = .OK → Keeps (watch parent) (fun _ _ => True) .looked (f r))
    (hfail : ∀ r, r.1 ≠ .OK → Keeps (watch parent) (fun _ _ => True) .released (f r)) :
    Keeps (watch parent) (fun _ _ => True) .start ((lookup name parent ino false).bind f) := by
  refine (lookup_watched name ino).bind ?_
  rintro ph r hph
  by_cases hr : r.1 = .OK
  · rw [if_pos hr] at hph
    subst hph
    exact hok r hr
  · rw [if_neg hr] at hph
    subst hph
    exact hfail r hr

theorem addDirent_getattr_watched {α : Type} {inum : ℕ} (name : Str) {f : xxstatus × stat → α}
    {a : α} :
    Keeps (watch parent) (fun _ _ => True) .looked
      ((addDirent parent inum name).bind fun r =>
        if r = .OK then (getattr inum).bind fun st => ret (f st) else ret a) := by
  refine (addDirent_watched inum name).bind ?_
  rintro _ r rfl
  split
  · exact (getattr_watched inum).bind fun _ _ _ => keeps_ret trivial
  · exact keeps_ret trivial

/-- The name is looked up and the entry put under one lock, so that no other client can add
the name between the two. -/
theorem adding_watched {α : Type} (name : Str) (draws : List ℕ) (ino : ℕ) {inumOf : ℕ → ℕ}
    {exist failed : α} {lost : xxstatus → α} {ok : ℕ → xxstatus × stat → α} :
    Keeps (watch parent) (fun _ _ => True) .start
      (adding parent name draws ino inumOf exist failed lost ok) := by
  refine lookup_bind_watched (fun r hr => ?_) fun r hr => ?_
  · rw [if_pos hr]
    split
    · exact release_watched (keeps_ret trivial)
    · cases drawIno draws with
      | none => exact fun x => nomatch x
      | some drawn => exact addDirent_getattr_watched name
  · rw [if_neg hr]
    exact keeps_ret trivial

theorem fuseserver_unlink_watched (name : Str) (ino : ℕ) :
    Keeps (watch parent) (fun _ _ => True) .start (fuseserver_unlink parent name ino) := by
  refine lookup_bind_watched (fun r hr => ?_) fun r hr => ?_
  · rw [if_pos hr]
    split
    · split
      · refine (unlink_watched r.2.2 name).bind ?_
        rintro _ _ rfl
        exact keeps_ret trivial
      · exact release_watched (keeps_ret trivial)
    · exact release_watched (keeps_ret trivial)
  · rw [if_neg hr]
    exact keeps_ret trivial

end Watch

/-! ## The discipline -/

/-- The directory an operation looks a name up in and then updates. -/
def updates : Request → Option ℕ
  | .create parent _ _ _ => some parent
  | .mknod parent _ _ _ => some parent
  | .mkdir parent _ _ _ => some parent
  | .unlink parent _ _ => some parent
  | _ => none

/-- The four operations that change a directory, each with the directory it names. -/
theorem handler_watched {q : Request} {parent : ℕ} (h : updates q = some parent) :
    Keeps (watch parent) (fun _ _ => True) .start q.handler := by
  cases q with
  | create p name draws ino | mknod p name draws ino =>
    obtain rfl := Option.some.inj h
    have hadd : Keeps (watch p) (fun _ _ => True) .start
        (fuseserver_createhelper p name draws ino) := by
      rw [createhelper_eq]
      exact adding_watched name draws ino
    exact hadd.bind fun _ _ _ => keeps_ret trivial
  | mkdir p name draws ino =>
    obtain rfl := Option.some.inj h
    rw [Request.handler, mkdir_eq]
    exact adding_watched name draws ino
  | unlink p name ino =>
    obtain rfl := Option.some.inj h
    exact fuseserver_unlink_watched name ino
  | getattr _ | setattr _ _ _ | read _ _ _ | write _ _ _ _ | lookup _ _ _ | readdir _ _ _ _ =>
    cases h

/-- **The lock discipline.** On every path of every request, whatever the calls answer:
a lock is released and an extent accessed only while the lock is held; where the
handler returns nothing is held and every lock was released as often as acquired; no
lock is taken while it is held, unless the drawn inum is the parent's; and for the
operations that change a directory, the path up to the `put` of the directory starts
with its lock and the lookup and does not give the lock back. -/
theorem lock_discipline {q : Request} {tr : List Ev} {p : FsProg Reply}
    (hpath : Steps.run Prog.step q.handler tr = some p) :
    (∃ held, Steps.run (hold false) [] tr = some held)
      ∧ (∀ r, p = ret r → Steps.run (hold false) [] tr = some []
          ∧ ∀ lid, acquires lid tr = releases lid tr)
      ∧ (NotItself q → ∃ held, Steps.run (hold true) [] tr = some held)
      ∧ ∀ parent pre post buf x, updates q = some parent →
          tr = pre ++ ⟨.put parent buf, x⟩ :: post →
          ∃ x₁ x₂ mid, pre = ⟨.acquire parent, x₁⟩ :: ⟨.get parent, x₂⟩ :: mid
            ∧ ∀ ev ∈ mid, ev.1 ≠ .release parent := by
  have hrestores : Restores false [] q.handler := handler_restores q nofun
  refine ⟨?_, ?_, ?_, ?_⟩
  · obtain ⟨held, hheld, -⟩ := hrestores.run hpath
    exact ⟨held, hheld⟩
  · rintro r rfl
    obtain ⟨held, hheld, rfl⟩ := hrestores.result hpath
    refine ⟨hheld, fun lid => ?_⟩
    have hcount := run_hold_count lid hheld
    omega
  · intro hself
    have honce : Restores true [] q.handler := handler_restores q fun _ => hself
    obtain ⟨held, hheld, -⟩ := honce.run hpath
    exact ⟨held, hheld⟩
  · rintro parent pre post buf x hq rfl
    obtain ⟨ph, hph, -⟩ := (handler_watched hq).run hpath
    exact path_to_looked (looked_of_put hph)

/-- `create` in directory 1 on the path where the name is new and every put succeeds. -/
def createPath : List Ev :=
  [⟨.acquire 1, ()⟩, ⟨.get 1, (.OK, [])⟩, ⟨.acquire 2147483653, ()⟩, ⟨.get 1, (.OK, [])⟩,
    ⟨.put 1 (direntText ['a'] 2147483653), .OK⟩, ⟨.put 2147483653 [], .OK⟩,
    ⟨.release 2147483653, ()⟩, ⟨.release 1, ()⟩, ⟨.acquire 2147483653, ()⟩,
    ⟨.getattr 2147483653, (.OK, ⟨7, 7, 7, 0⟩)⟩, ⟨.release 2147483653, ()⟩]

/-- The entry `create` replies with on that path. -/
def createdEntry : fuse_entry_param :=
  ⟨2147483653, ⟨2147483653, S_IFREG ||| 0o666, 1, 7, 7, 7, 0⟩⟩

theorem lock_discipline_createPath :
    Steps.run Prog.step (Request.create 1 ['a'] [1, 5] 0).handler createPath
        = some (ret (.create createdEntry))
      ∧ Steps.run (hold false) [] createPath = some []
      ∧ (∀ lid, acquires lid createPath = releases lid createPath)
      ∧ ∃ held, Steps.run (hold true) [] createPath = some held := by
  have hpath : Steps.run Prog.step (Request.create 1 ['a'] [1, 5] 0).handler createPath
      = some (ret (.create createdEntry)) := rfl
  obtain ⟨-, hret, honce, -⟩ := lock_discipline hpath
  refine ⟨hpath, (hret _ rfl).1, (hret _ rfl).2, honce ?_⟩
  intro drawn hdrawn
  obtain rfl : 5 = drawn := Option.some.inj hdrawn
  decide

end Yfs.LockDiscipline
