/-
Runs of directory operations by any number of clients, serialised by the
directory's lock.

`lookup` and `readDir` take the lock and give it back. `create`, `mkdir` and
`unlink` are two steps: `lookup` leaves the lock with the client, and the second step
either gives it back or rewrites the directory first. While a client is between the
two steps nobody else can start. The second step also takes the lock of the new or
removed inum; a client that draws the directory's own inum waits for itself for ever,
so that step is not enabled.

The reference map is the fold of what the operations reported. Every state's text
decodes to it, and every reply is the one the map gives.
-/
import Yfs.Dir
import Yfs.Steps

set_option autoImplicit false

namespace Yfs.DirRun

open Text Yfs.StringSplit Yfs.Dir

/-! ## The system -/

/-- The replies of the FUSE operations. -/
inductive errno where
  | success | EEXIST | ENOENT | ENOSYS
  deriving DecidableEq, Repr

/-- The operations that keep the lock after their `lookup`; `draws` is what `random`
returns to them. -/
inductive Op where
  | create (draws : List ℕ)
  | mkdir (draws : List ℕ)
  /-- `yfs_client::unlink` of what the lookup found. -/
  | unlink
  /-- `fuseserver_unlink`, which refuses a directory. -/
  | fuseserver_unlink
  deriving DecidableEq, Repr

/-- A completed operation and its reply. -/
inductive Event where
  | looked (name : Str) (ret : xxstatus) (found : Bool) (child : ℕ)
  | listed (ret : xxstatus) (dirents : List dirent)
  | created (name : Str) (ret : xxstatus) (ino : ℕ)
  | made (name : Str) (err : errno) (ino : ℕ)
  | unlinked (name : Str) (err : errno)
  | fuse_unlinked (name : Str) (err : errno)
  deriving DecidableEq, Repr

/-- A client between its `lookup` and the rest of its operation. -/
structure Pending where
  client : ℕ
  name : Str
  op : Op
  found : Bool
  ino : ℕ
  deriving DecidableEq, Repr

structure System where
  files : Files
  /-- Who holds the directory's lock. -/
  holder : Option Pending
  /-- The completed operations, oldest first. -/
  log : List Event

inductive Act where
  /-- `ino` and `junk` are the caller's uninitialised variables. -/
  | lookup (name : Str) (ino : ℕ)
  | readDir (junk : ℕ)
  | begin (client : ℕ) (name : Str) (op : Op) (ino : ℕ)
  | finish

/-! ## The second half of an operation -/

/-- Add an entry for a drawn inum under the locks of both. -/
def add (files : Files) (dir : ℕ) (p : Pending) (draw : Option ℕ) : Option (xxstatus × Files × ℕ) :=
  match draw with
  | none => none
  | some ino =>
    -- the lock of `ino` is taken under the lock of `dir`, so the client waits for itself
    if ino = dir then none
    else
      let r := addDirent files dir ino p.name
      some (r.1, r.2, ino)

/-- `fuseserver_createhelper` after its lookup. -/
def createhelper (files : Files) (dir : ℕ) (p : Pending) (draws : List ℕ) :
    Option (Files × Event) :=
  if p.found then some (files, .created p.name .EXIST p.ino)
  else (add files dir p ((drawIno draws).map fileIno)).map fun r =>
    (r.2.1, .created p.name (if r.1 = .OK then .OK else .NOENT) r.2.2)

/-- `fuseserver_mkdir` after its lookup. -/
def mkdir (files : Files) (dir : ℕ) (p : Pending) (draws : List ℕ) : Option (Files × Event) :=
  if p.found then some (files, .made p.name .EEXIST p.ino)
  else (add files dir p ((drawIno draws).map dirIno)).map fun r =>
    (r.2.1, .made p.name (if r.1 = .OK then .success else .ENOSYS) r.2.2)

/-- `yfs_client::unlink` under the locks of both. -/
def remove (files : Files) (dir : ℕ) (p : Pending) : Option (errno × Files) :=
  if p.ino = dir then none
  else
    let r := unlink files dir p.ino p.name
    some (if r.1 = .OK then .success else .ENOSYS, r.2)

def finish (files : Files) (dir : ℕ) (p : Pending) : Option (Files × Event) :=
  match p.op with
  | .create draws => createhelper files dir p draws
  | .mkdir draws => mkdir files dir p draws
  | .unlink =>
    if p.found then (remove files dir p).map fun r => (r.2, .unlinked p.name r.1)
    else some (files, .unlinked p.name .ENOENT)
  | .fuseserver_unlink =>
    if p.found then
      if isfile p.ino then (remove files dir p).map fun r => (r.2, .fuse_unlinked p.name r.1)
      else some (files, .fuse_unlinked p.name .ENOSYS)
    else some (files, .fuse_unlinked p.name .ENOENT)

/-- The reply when `lookup` finds no directory; it has given the lock back. -/
def noDirectory (name : Str) (ret : xxstatus) (ino : ℕ) : Op → Event
  | .create _ => .created name ret ino
  | .mkdir _ => .made name .ENOSYS ino
  | .unlink => .unlinked name .ENOSYS
  | .fuseserver_unlink => .fuse_unlinked name .ENOSYS

/-- One step on directory `dir`. -/
def step (dir : ℕ) (s : System) : Act → Option System
  | .lookup name ino =>
    if s.holder = none then
      let r := lookup s.files name dir ino
      some { s with log := s.log ++ [.looked name r.1 r.2.1 r.2.2] }
    else none
  | .readDir junk =>
    if s.holder = none then
      let r := readDir s.files dir junk
      some { s with log := s.log ++ [.listed r.1 r.2] }
    else none
  | .begin client name op ino =>
    if s.holder = none then
      let r := lookup s.files name dir ino
      -- the directory exists: `lookup` comes back with the lock held
      if r.1 = .OK then some { s with holder := some ⟨client, name, op, r.2.1, r.2.2⟩ }
      else some { s with log := s.log ++ [noDirectory name r.1 r.2.2 op] }
    else none
  | .finish =>
    match s.holder with
    | none => none
    | some p => (finish s.files dir p).map fun r => ⟨r.1, none, s.log ++ [r.2]⟩

/-- An empty directory, and any other extents. -/
def System.init (files : Files) (dir : ℕ) : System :=
  ⟨Function.update files dir (some []), none, []⟩

/-! ## The reference map -/

abbrev DirMap := Str → Option ℕ

/-- What a completed operation makes of the map. -/
def effect (m : DirMap) : Event → DirMap
  | .created name .OK ino => Function.update m name (some ino)
  | .made name .success ino => Function.update m name (some ino)
  | .unlinked name .success => Function.update m name none
  | .fuse_unlinked name .success => Function.update m name none
  | _ => m

/-- The map after a log. -/
def reference (log : List Event) : DirMap := log.foldl effect fun _ => none

theorem reference_append (log : List Event) (e : Event) :
    reference (log ++ [e]) = effect (reference log) e := by
  rw [reference, List.foldl_append]
  rfl

/-- A list of entries is the map: every name once, with its inum. -/
def Lists (m : DirMap) (ds : List dirent) : Prop :=
  (ds.map dirent.name).Nodup ∧ ∀ name inum, ⟨name, inum⟩ ∈ ds ↔ m name = some inum

/-- The text of the directory decodes to the map. -/
def Decodes (m : DirMap) (f : Option Str) : Prop :=
  ∃ ext, f = some ext ∧ ∀ junk, Lists m (readDir_loop junk (Split ext ['|'] true true))

/-- The reply an operation should give when the map is `m`, and what it may change. -/
def ReplyOk (m : DirMap) (files files' : Files) : Event → Prop
  | .looked name ret found child =>
    ret = .OK ∧ (found = true ↔ m name ≠ none) ∧ ∀ i, m name = some i → child = i
  | .listed ret ds => ret = .OK ∧ Lists m ds
  | .created name ret _ =>
    (m name ≠ none ∧ ret = .EXIST ∧ files' = files) ∨ (m name = none ∧ ret = .OK)
  | .made name err _ =>
    (m name ≠ none ∧ err = .EEXIST ∧ files' = files) ∨ (m name = none ∧ err = .success)
  | .unlinked name err =>
    (m name ≠ none ∧ err = .success) ∨ (m name = none ∧ err = .ENOENT ∧ files' = files)
  | .fuse_unlinked name err =>
    (∃ i, m name = some i ∧ isfile i = true ∧ err = .success)
      ∨ (∃ i, m name = some i ∧ isfile i = false ∧ err = .ENOSYS ∧ files' = files)
      ∨ (m name = none ∧ err = .ENOENT ∧ files' = files)

/-! ## Lists of entries and the map -/

/-- A list of entries that can be stored and is the map. -/
structure Represents (m : DirMap) (ds : List dirent) : Prop where
  entries : ∀ e ∈ ds, EntryOk e
  lists : Lists m ds

theorem represents_nil : Represents (fun _ => none) [] := by
  refine ⟨?_, List.nodup_nil, ?_⟩
  · simp
  · simp

theorem Lists.find {m : DirMap} {ds : List dirent} (h : Lists m ds) (name : Str) :
    ds.find? (fun e => e.name == name) = (m name).map fun i => ⟨name, i⟩ := by
  cases hm : m name with
  | none =>
    rw [Option.map_none, List.find?_eq_none]
    rintro ⟨n, i⟩ he
    have hn := (h.2 n i).mp he
    simp only [beq_iff_eq]
    rintro rfl
    rw [hm] at hn
    cases hn
  | some i =>
    rw [Option.map_some]
    have hmem := (h.2 name i).mpr hm
    -- names are distinct, so whatever the search finds under this name is the entry
    cases hf : ds.find? (fun e => e.name == name) with
    | none =>
      have := List.find?_eq_none.mp hf _ hmem
      simp at this
    | some e =>
      have hname : e.name = name := by simpa using List.find?_some hf
      obtain ⟨n, j⟩ := e
      obtain rfl : n = name := hname
      have hj := (h.2 n j).mp (List.mem_of_find?_eq_some hf)
      rw [hm, Option.some.injEq] at hj
      rw [hj]

theorem Represents.append {m : DirMap} {ds : List dirent} (h : Represents m ds) {name : Str}
    {inum : ℕ} (hname : NameOk name) (hinum : inum < 2 ^ 64) (hnew : m name = none) :
    Represents (Function.update m name (some inum)) (ds ++ [⟨name, inum⟩]) := by
  have hfresh : ∀ e ∈ ds, e.name ≠ name := by
    rintro ⟨n, i⟩ he rfl
    have := (h.lists.2 n i).mp he
    rw [hnew] at this
    cases this
  refine ⟨?_, ?_, ?_⟩
  · intro e he
    rcases List.mem_append.mp he with he | he
    · exact h.entries e he
    · rw [List.mem_singleton.mp he]
      exact ⟨hname, hinum⟩
  · rw [List.map_append, List.nodup_append]
    refine ⟨h.lists.1, by simp, ?_⟩
    intro a ha b hb
    obtain ⟨e, he, rfl⟩ := List.mem_map.mp ha
    simp only [List.map_cons, List.map_nil, List.mem_singleton] at hb
    rw [hb]
    exact hfresh e he
  · intro n i
    rw [List.mem_append, List.mem_singleton, h.lists.2]
    by_cases hn : n = name
    · subst hn
      simp [hnew, eq_comm]
    · simp [hn]

theorem Represents.filter {m : DirMap} {ds : List dirent} (h : Represents m ds) (name : Str) :
    Represents (Function.update m name none) (ds.filter fun e => e.name != name) := by
  refine ⟨fun e he => h.entries e (List.mem_of_mem_filter he), ?_, ?_⟩
  · exact h.lists.1.sublist (List.Sublist.map _ List.filter_sublist)
  · intro n i
    rw [List.mem_filter, h.lists.2]
    by_cases hn : n = name
    · subst hn
      simp
    · simp [hn]

/-! ## The operations on a directory that represents a map -/

section Ops

variable {files : Files} {dir : ℕ} {m : DirMap} {ds : List dirent}

theorem lookup_represents (hf : files dir = some (encode ds)) (h : Represents m ds) (name : Str)
    (child : ℕ) :
    lookup files name dir child = (.OK, (m name).isSome, (m name).getD child) := by
  simp only [lookup, hf]
  rw [Split_encode h.entries, lookup_loop_encode h.entries, h.lists.find]
  cases m name <;> rfl

theorem readDir_represents (hf : files dir = some (encode ds)) (h : Represents m ds) (junk : ℕ) :
    readDir files dir junk = (.OK, ds) := by
  simp only [readDir, hf]
  rw [Split_encode h.entries, readDir_loop_encode h.entries]

theorem decodes_represents (hf : files dir = some (encode ds)) (h : Represents m ds) :
    Decodes m (files dir) := by
  refine ⟨_, hf, fun junk => ?_⟩
  rw [Split_encode h.entries, readDir_loop_encode h.entries]
  exact h.lists

/-- Adding an entry appends it to the list. -/
theorem addDirent_represents (hf : files dir = some (encode ds)) {ino : ℕ} (hino : ino ≠ dir)
    (name : Str) :
    (addDirent files dir ino name).1 = .OK
      ∧ (addDirent files dir ino name).2 dir = some (encode (ds ++ [⟨name, ino⟩])) := by
  simp only [addDirent, hf]
  refine ⟨trivial, ?_⟩
  rw [Function.update_of_ne hino.symm, Function.update_self]
  simp [encode]

/-- Unlinking filters the list. -/
theorem unlink_represents (hf : files dir = some (encode ds)) (h : Represents m ds) {ino : ℕ}
    (hino : ino ≠ dir) (name : Str) :
    (unlink files dir ino name).1 = .OK
      ∧ (unlink files dir ino name).2 dir
          = some (encode (ds.filter fun e => e.name != name)) := by
  simp only [unlink, hf]
  refine ⟨trivial, ?_⟩
  rw [Function.update_of_ne hino.symm, Function.update_self, Split_encode h.entries,
    unlink_loop_encode h.entries]

end Ops

/-! ## The invariant -/

/-- What `lookup` told the client that holds the lock still is the case. -/
structure HolderOk (m : DirMap) (p : Pending) : Prop where
  name : NameOk p.name
  found : p.found = (m p.name).isSome
  ino : ∀ i, m p.name = some i → p.ino = i

structure Inv (dir : ℕ) (s : System) : Prop where
  text : ∃ ds, s.files dir = some (encode ds) ∧ Represents (reference s.log) ds
  holder : ∀ p, s.holder = some p → HolderOk (reference s.log) p

theorem inv_init (files : Files) (dir : ℕ) : Inv dir (System.init files dir) :=
  ⟨⟨[], Function.update_self .., represents_nil⟩, fun p h => by cases h⟩

/-- The names an action brings in can be stored. -/
def Act.NameOk : Act → Prop
  | .lookup name _ => Dir.NameOk name
  | .readDir _ => True
  | .begin _ name _ _ => Dir.NameOk name
  | .finish => True

/-- What the second half of an operation has to establish. -/
def Finished (dir : ℕ) (m : DirMap) (files : Files) (r : Files × Event) : Prop :=
  (∃ ds, r.1 dir = some (encode ds) ∧ Represents (effect m r.2) ds) ∧ ReplyOk m files r.1 r.2

section Finish

variable {files : Files} {dir : ℕ} {m : DirMap} {ds : List dirent} {p : Pending}

/-- Adding an entry under a drawn inum. -/
theorem add_finished (hf : files dir = some (encode ds)) (h : Represents m ds)
    (hp : HolderOk m p) (hnew : m p.name = none) {draw : Option ℕ} {r : xxstatus × Files × ℕ}
    (hdraw : ∀ i, draw = some i → i < 2 ^ 64) (hr : add files dir p draw = some r) :
    r.1 = .OK ∧ ∃ ds, r.2.1 dir = some (encode ds)
      ∧ Represents (Function.update m p.name (some r.2.2)) ds := by
  unfold add at hr
  split at hr
  · cases hr
  · next ino =>
    split at hr
    · cases hr
    · next hino =>
      obtain rfl := Option.some.inj hr
      have hadd := addDirent_represents hf hino p.name
      exact ⟨hadd.1, _, hadd.2, h.append hp.name (hdraw ino rfl) hnew⟩

theorem drawn_lt {f : ℕ → ℕ} (hf : ∀ r, f r < 2 ^ 64) (draws : List ℕ) (i : ℕ)
    (hi : (drawIno draws).map f = some i) : i < 2 ^ 64 := by
  obtain ⟨r, -, rfl⟩ := Option.map_eq_some_iff.mp hi
  exact hf r

/-- What `create` and `mkdir` have in common: the name exists and nothing changes, or an
entry is added. -/
theorem adding_cases (hf : files dir = some (encode ds)) (h : Represents m ds)
    (hp : HolderOk m p) {draw : Option ℕ} (hdraw : ∀ i, draw = some i → i < 2 ^ 64)
    {refuse : Files × Event} {f : xxstatus × Files × ℕ → Files × Event} {r : Files × Event}
    (hr : (if p.found then some refuse else (add files dir p draw).map f) = some r) :
    (m p.name ≠ none ∧ r = refuse) ∨ (m p.name = none ∧ ∃ a, r = f a ∧ a.1 = .OK
      ∧ ∃ ds, a.2.1 dir = some (encode ds)
        ∧ Represents (Function.update m p.name (some a.2.2)) ds) := by
  rw [hp.found] at hr
  split at hr
  · next hsome => exact .inl ⟨Option.isSome_iff_ne_none.mp hsome, (Option.some.inj hr).symm⟩
  · next hnone =>
    have hnew : m p.name = none := by simpa using hnone
    obtain ⟨a, ha, rfl⟩ := Option.map_eq_some_iff.mp hr
    exact .inr ⟨hnew, a, rfl, add_finished hf h hp hnew hdraw ha⟩

theorem createhelper_finished (hf : files dir = some (encode ds)) (h : Represents m ds)
    (hp : HolderOk m p) {draws : List ℕ} {r : Files × Event}
    (hr : createhelper files dir p draws = some r) : Finished dir m files r := by
  rcases adding_cases hf h hp (drawn_lt fileIno_lt draws) hr with
    ⟨hsome, rfl⟩ | ⟨hnew, a, rfl, hok, ds', hds', hrep⟩
  · exact ⟨⟨ds, hf, h⟩, .inl ⟨hsome, rfl, rfl⟩⟩
  · simp only [hok, if_true]
    exact ⟨⟨ds', hds', hrep⟩, .inr ⟨hnew, rfl⟩⟩

theorem mkdir_finished (hf : files dir = some (encode ds)) (h : Represents m ds)
    (hp : HolderOk m p) {draws : List ℕ} {r : Files × Event}
    (hr : mkdir files dir p draws = some r) : Finished dir m files r := by
  rcases adding_cases hf h hp (drawn_lt dirIno_lt draws) hr with
    ⟨hsome, rfl⟩ | ⟨hnew, a, rfl, hok, ds', hds', hrep⟩
  · exact ⟨⟨ds, hf, h⟩, .inl ⟨hsome, rfl, rfl⟩⟩
  · simp only [hok, if_true]
    exact ⟨⟨ds', hds', hrep⟩, .inr ⟨hnew, rfl⟩⟩

/-- Removing the entry the lookup found. -/
theorem remove_finished (hf : files dir = some (encode ds)) (h : Represents m ds)
    {r : errno × Files} (hr : remove files dir p = some r) :
    r.1 = .success ∧ ∃ ds, r.2 dir = some (encode ds)
      ∧ Represents (Function.update m p.name none) ds := by
  unfold remove at hr
  split at hr
  · cases hr
  · next hino =>
    obtain rfl := Option.some.inj hr
    have hunlink := unlink_represents hf h hino p.name
    simp only [hunlink.1, if_true]
    exact ⟨trivial, _, hunlink.2, h.filter p.name⟩

/-- The second half of every operation does what it should. -/
theorem finish_finished (hf : files dir = some (encode ds)) (h : Represents m ds)
    (hp : HolderOk m p) {r : Files × Event} (hr : finish files dir p = some r) :
    Finished dir m files r := by
  unfold finish at hr
  split at hr
  · exact createhelper_finished hf h hp hr
  · exact mkdir_finished hf h hp hr
  -- `unlink`
  · rw [hp.found] at hr
    split at hr
    · next hsome =>
      obtain ⟨a, ha, rfl⟩ := Option.map_eq_some_iff.mp hr
      obtain ⟨hok, ds', hds', hrep⟩ := remove_finished hf h ha
      rw [hok]
      exact ⟨⟨ds', hds', hrep⟩, .inl ⟨Option.isSome_iff_ne_none.mp hsome, rfl⟩⟩
    · next hnone =>
      obtain rfl := Option.some.inj hr
      exact ⟨⟨ds, hf, h⟩, .inr ⟨by simpa using hnone, rfl, rfl⟩⟩
  -- `fuseserver_unlink`, which asks what kind of inum the lookup has found
  · rw [hp.found] at hr
    split at hr
    · next hsome =>
      obtain ⟨i, hi⟩ := Option.isSome_iff_exists.mp hsome
      split at hr
      · next hfile =>
        obtain ⟨a, ha, rfl⟩ := Option.map_eq_some_iff.mp hr
        obtain ⟨hok, ds', hds', hrep⟩ := remove_finished hf h ha
        rw [hok]
        exact ⟨⟨ds', hds', hrep⟩, .inl ⟨i, hi, hp.ino i hi ▸ hfile, rfl⟩⟩
      · next hfile =>
        obtain rfl := Option.some.inj hr
        refine ⟨⟨ds, hf, h⟩, .inr (.inl ⟨i, hi, ?_, rfl, rfl⟩)⟩
        rw [← hp.ino i hi]
        simpa using hfile
    · next hnone =>
      obtain rfl := Option.some.inj hr
      exact ⟨⟨ds, hf, h⟩, .inr (.inr ⟨by simpa using hnone, rfl, rfl⟩)⟩

end Finish

/-! ## Steps and runs -/

/-- An operation that only reads. -/
theorem inv_logged {dir : ℕ} {s : System} (hinv : Inv dir s) {e : Event}
    (hsame : effect (reference s.log) e = reference s.log) :
    Inv dir { s with log := s.log ++ [e] } := by
  have hlog : reference (s.log ++ [e]) = reference s.log := (reference_append _ e).trans hsame
  refine ⟨?_, ?_⟩
  · rw [hlog]
    exact hinv.text
  · rw [hlog]
    exact hinv.holder

theorem logged_inj {log : List Event} {e e' : Event} (h : log ++ [e] = log ++ [e']) : e' = e :=
  (List.singleton_inj.mp (List.append_cancel_left h)).symm

/-- One step keeps the invariant, and the reply it adds to the log is right. -/
theorem step_ok {dir : ℕ} {s s' : System} {a : Act} (hinv : Inv dir s) (hname : a.NameOk)
    (hs : step dir s a = some s') :
    Inv dir s' ∧ ∀ e, s'.log = s.log ++ [e] → ReplyOk (reference s.log) s.files s'.files e := by
  obtain ⟨ds, hf, hrep⟩ := hinv.text
  cases a with
  | lookup name ino =>
    simp only [step] at hs
    split at hs
    · obtain rfl := Option.some.inj hs
      simp only [lookup_represents hf hrep]
      refine ⟨inv_logged hinv rfl, fun e he => ?_⟩
      obtain rfl := logged_inj he
      refine ⟨rfl, Option.isSome_iff_ne_none, fun i hi => ?_⟩
      rw [hi]
      rfl
    · cases hs
  | readDir junk =>
    simp only [step] at hs
    split at hs
    · obtain rfl := Option.some.inj hs
      simp only [readDir_represents hf hrep]
      refine ⟨inv_logged hinv rfl, fun e he => ?_⟩
      obtain rfl := logged_inj he
      exact ⟨rfl, hrep.lists⟩
    · cases hs
  | «begin» client name op ino =>
    simp only [step] at hs
    split at hs
    · simp only [lookup_represents hf hrep, if_true] at hs
      obtain rfl := Option.some.inj hs
      refine ⟨⟨⟨ds, hf, hrep⟩, ?_⟩, fun e he => by simp at he⟩
      -- nobody else can start before the second half, so what the lookup found stays true
      rintro p ⟨rfl⟩
      refine ⟨hname, rfl, fun i hi => ?_⟩
      simp only [hi, Option.getD_some]
    · cases hs
  | finish =>
    simp only [step] at hs
    split at hs
    · cases hs
    · next p hp =>
      obtain ⟨r, hr, rfl⟩ := Option.map_eq_some_iff.mp hs
      obtain ⟨⟨ds', hds', hrep'⟩, hreply⟩ := finish_finished hf hrep (hinv.holder p hp) hr
      refine ⟨⟨⟨ds', hds', ?_⟩, fun p h => by cases h⟩, fun e he => ?_⟩
      · rw [reference_append]
        exact hrep'
      · obtain rfl := logged_inj he
        exact hreply

/-- **A directory is a finite map.** In every run over storable names, by any clients,
from an empty directory: the text decodes to the reference map with every name once,
and every operation that completes gives the reply of the map and changes the
directory only as the reply says. -/
theorem directory_is_finite_map {files : Files} {dir : ℕ} {as : List Act} {s : System}
    (hnames : ∀ a ∈ as, a.NameOk)
    (hrun : Steps.run (step dir) (System.init files dir) as = some s) :
    Decodes (reference s.log) (s.files dir)
      ∧ ∀ a s' e, a.NameOk → step dir s a = some s' → s'.log = s.log ++ [e] →
          ReplyOk (reference s.log) s.files s'.files e
            ∧ Decodes (effect (reference s.log) e) (s'.files dir) := by
  have hinv : Inv dir s := Steps.run_inv_forall
    (fun s a s' hinv hname hs => (step_ok hinv hname hs).1) (inv_init files dir) hnames hrun
  obtain ⟨ds, hf, hrep⟩ := hinv.text
  refine ⟨decodes_represents hf hrep, fun a s' e hname hs he => ?_⟩
  obtain ⟨hinv', hreply⟩ := step_ok hinv hname hs
  obtain ⟨ds', hf', hrep'⟩ := hinv'.text
  refine ⟨hreply e he, ?_⟩
  rw [he, reference_append] at hrep'
  exact decodes_represents hf' hrep'

/-- Two clients create `a` and `b`, the second one tries `a` again, and `a` is
unlinked. -/
def twoClients : List Act :=
  [.begin 0 ['a'] (.create [1, 5]) 0, .finish, .begin 1 ['b'] (.mkdir [9]) 0, .finish,
    .begin 1 ['a'] (.create [6]) 0, .finish, .begin 0 ['a'] .fuseserver_unlink 0]

theorem directory_is_finite_map_twoClients :
    ∃ s s', Steps.run (step 1) (System.init (fun _ => none) 1) twoClients = some s
      ∧ step 1 s .finish = some s'
      ∧ s'.log = [.created ['a'] .OK 2147483653, .made ['b'] .success 9,
          .created ['a'] .EXIST 2147483653, .fuse_unlinked ['a'] .success]
      ∧ Decodes (reference s.log) (s.files 1)
      ∧ Decodes (effect (reference s.log) (.fuse_unlinked ['a'] .success)) (s'.files 1) := by
  have hex : ((Steps.run (step 1) (System.init (fun _ => none) 1) twoClients).bind
      fun s => (step 1 s .finish).map fun s' => (s.log, s'.log))
        = some ([.created ['a'] .OK 2147483653, .made ['b'] .success 9,
              .created ['a'] .EXIST 2147483653],
            [.created ['a'] .OK 2147483653, .made ['b'] .success 9,
              .created ['a'] .EXIST 2147483653, .fuse_unlinked ['a'] .success]) := by
    decide
  obtain ⟨s, s', hs, hs', heq⟩ := Steps.exists_run_step hex
  obtain ⟨hlog, hlog'⟩ := Prod.mk.inj heq
  have hnames : ∀ a ∈ twoClients, a.NameOk := by
    simp [twoClients, Act.NameOk, Dir.NameOk]
  have hmap := directory_is_finite_map hnames hs
  refine ⟨s, s', hs, hs', hlog', hmap.1, (hmap.2 .finish s' _ trivial hs' ?_).2⟩
  rw [hlog, hlog']
  rfl

end Yfs.DirRun
