/-
What a `flush` does to the server (`extent_client.cc`).

A client makes its calls one after the other; between them other clients may change
the server in any way. `flush` looks at the two caches only. They tell it whether the
extent has a content that was put, but a removed extent, an extent that has been
flushed already and one that was never accessed all look the same, and a removed extent
that has been accessed again looks like one that was only read.

The history of a client at an extent, since its last flush, says what the caches hold,
and so what the next `flush` sends.
-/
import Yfs.ExtentSession

set_option autoImplicit false

namespace Yfs.ExtentFlush

open Yfs.Extent Yfs.ExtentSession

/-! ## The client and the others -/

structure System where
  client : extent_client
  server : extent_server
  /-- The calls of the client, newest first. -/
  log : List (ℕ × Op)

inductive Act where
  | call (a : Call)
  /-- Other clients have left the server like this. -/
  | others (server : extent_server)

def System.init (server : extent_server) : System := ⟨.new, server, []⟩

def step (s : System) : Act → Option System
  | .call a =>
    some ⟨(runCall s.client s.server a).1, (runCall s.client s.server a).2.1,
      (a.eid, a.op) :: s.log⟩
  | .others server => some { s with server := server }

/-! ## The history at one extent -/

/-- The calls on `eid` since its last `flush`, newest first. -/
def sinceFlush (eid : ℕ) : List (ℕ × Op) → List Op
  | [] => []
  | (id, op) :: log =>
    if id = eid then (if op = .flush then [] else op :: sinceFlush eid log)
    else sinceFlush eid log

/-- What the last `put` or `remove` wants to be stored, if there is one. -/
def lastWrite : List Op → Option (Option Content)
  | [] => none
  | .put buf :: _ => some (some buf)
  | .remove :: _ => some none
  | _ :: ops => lastWrite ops

/-- What a write-back of this history should leave of a stored `v`. -/
def expected (ops : List Op) (v : Option Content) : Option Content := (lastWrite ops).getD v

/-- The content that is marked dirty after this history. -/
def dirtyOf : List Op → Option Content
  | [] => none
  | .put buf :: _ => some buf
  | .remove :: _ => none
  | _ :: ops => dirtyOf ops

/-- Is there anything in the caches after this history? -/
def known : List Op → Bool
  | [] => false
  | .remove :: _ => false
  | _ => true

/-- There was a call since the last `flush`, and no access after a `remove` that no `put`
has followed. -/
def Settled (ops : List Op) : Prop :=
  ops ≠ [] ∧ (lastWrite ops = some none → known ops = false)

instance (ops : List Op) : Decidable (Settled ops) := inferInstanceAs (Decidable (_ ∧ _))

theorem dirtyOf_eq_some {ops : List Op} {buf : Content} (h : dirtyOf ops = some buf) :
    lastWrite ops = some (some buf) ∧ known ops = true := by
  induction ops with
  | nil => cases h
  | cons op ops ih =>
    cases op with
    | put b =>
      obtain rfl := Option.some.inj h
      exact ⟨rfl, rfl⟩
    | remove => cases h
    | get | getattr | flush => exact ⟨(ih h).1, rfl⟩

theorem dirtyOf_eq_none {ops : List Op} (h : dirtyOf ops = none) :
    lastWrite ops = none ∨ lastWrite ops = some none := by
  induction ops with
  | nil => exact .inl rfl
  | cons op ops ih =>
    cases op with
    | put b => cases h
    | remove => exact .inr rfl
    | get | getattr | flush => exact ih h

/-! ## The caches and the history -/

/-- What the caches hold at `eid`, by the history since the last `flush`. -/
structure Slice (c : extent_client) (eid : ℕ) (ops : List Op) : Prop where
  dirty : ∀ buf, c.cacheFiles eid = some ⟨buf, true⟩ ↔ dirtyOf ops = some buf
  attrs : c.cacheAttrs eid = none ↔ known ops = false
  files : c.cacheFiles eid ≠ none → c.cacheAttrs eid ≠ none

/-- The invariant: the caches hold what the history says, at every extent. -/
def Inv (s : System) : Prop := ∀ eid, Slice s.client eid (sinceFlush eid s.log)

theorem slice_empty {c : extent_client} {eid : ℕ} {ops : List Op}
    (hfiles : c.cacheFiles eid = none) (hattrs : c.cacheAttrs eid = none)
    (hdirty : dirtyOf ops = none) (hknown : known ops = false) : Slice c eid ops := by
  constructor
  · intro buf
    rw [hfiles, hdirty]
    simp
  · rw [hattrs, hknown]
    simp
  · intro hsome
    exact absurd hfiles hsome

theorem inv_init (server : extent_server) : Inv (.init server) :=
  fun _ => slice_empty rfl rfl rfl rfl

section Call

variable {c : extent_client} {s : extent_server} {a : Call} {ops : List Op}

/-- After a `flush` the caches hold nothing of the extent. -/
theorem flush_empties (hop : a.op = .flush) :
    (runCall c s a).1.cacheFiles a.eid = none ∧ (runCall c s a).1.cacheAttrs a.eid = none := by
  cases hf : c.cacheFiles a.eid with
  | some f =>
    obtain ⟨buf, dirty⟩ := f
    cases dirty with
    | true =>
      rw [runCall_flush_dirty hop hf]
      exact ⟨erase_cacheFiles .., erase_cacheAttrs ..⟩
    | false =>
      rw [runCall_flush_clean hop hf]
      exact ⟨erase_cacheFiles .., erase_cacheAttrs ..⟩
  | none =>
    cases hx : c.cacheAttrs a.eid with
    | some x =>
      rw [runCall_flush_attr hop hf hx]
      exact ⟨hf, Function.update_self ..⟩
    | none =>
      rw [runCall_flush_unknown hop hf hx]
      exact ⟨hf, hx⟩

theorem slice_get (h : Slice c a.eid ops) (hop : a.op = .get) :
    Slice (runCall c s a).1 a.eid (.get :: ops) := by
  cases hf : c.cacheFiles a.eid with
  | some f =>
    rw [runCall_get_hit hop hf]
    constructor
    · intro buf
      rw [setAttr_cacheFiles, h.dirty]
      rfl
    · simp [known]
    · simp
  | none =>
    -- what was fetched is clean, and nothing was dirty before
    have hclean : dirtyOf ops = none := by
      cases hd : dirtyOf ops with
      | none => rfl
      | some buf =>
        rw [(h.dirty buf).mpr hd] at hf
        cases hf
    rw [runCall_get_miss hop hf]
    constructor
    · intro buf
      rw [setAttr_cacheFiles, setFile_cacheFiles]
      simp [dirtyOf, hclean]
    · simp [known]
    · simp

theorem slice_getattr (h : Slice c a.eid ops) (hop : a.op = .getattr) :
    Slice (runCall c s a).1 a.eid (.getattr :: ops) := by
  cases hx : c.cacheAttrs a.eid with
  | some x =>
    rw [runCall_getattr_hit hop hx]
    refine ⟨h.dirty, ?_, h.files⟩
    simp [hx, known]
  | none =>
    rw [runCall_getattr_miss hop hx]
    constructor
    · intro buf
      rw [setAttr_cacheFiles, h.dirty]
      rfl
    · simp [known]
    · simp

theorem slice_put {buf : Content} (hop : a.op = .put buf) :
    Slice (runCall c s a).1 a.eid (.put buf :: ops) := by
  obtain ⟨x, -, hx⟩ := runCall_put c s hop
  rw [hx]
  constructor
  · intro b
    rw [setAttr_cacheFiles, setFile_cacheFiles]
    simp [dirtyOf]
  · simp [known]
  · simp

/-- One call keeps the caches in step with the history of its extent. -/
theorem slice_call (h : Slice c a.eid ops) :
    Slice (runCall c s a).1 a.eid (if a.op = .flush then [] else a.op :: ops) := by
  cases hop : a.op with
  | get => exact slice_get h hop
  | getattr => exact slice_getattr h hop
  | put buf => exact slice_put hop
  | remove =>
    rw [runCall_remove hop]
    exact slice_empty (erase_cacheFiles ..) (erase_cacheAttrs ..) rfl rfl
  | flush =>
    obtain ⟨hfiles, hattrs⟩ := flush_empties (c := c) (s := s) hop
    exact slice_empty hfiles hattrs rfl rfl

end Call

theorem step_inv {s s' : System} {x : Act} (hinv : Inv s) (hs : step s x = some s') : Inv s' := by
  cases x with
  | others server =>
    obtain rfl := Option.some.inj hs
    exact hinv
  | call a =>
    obtain rfl := Option.some.inj hs
    intro eid
    by_cases heid : a.eid = eid
    · subst heid
      have hops : sinceFlush a.eid ((a.eid, a.op) :: s.log)
          = if a.op = .flush then [] else a.op :: sinceFlush a.eid s.log := if_pos rfl
      rw [hops]
      exact slice_call (hinv a.eid)
    · have hops : sinceFlush eid ((a.eid, a.op) :: s.log) = sinceFlush eid s.log :=
        if_neg heid
      have hsame : Same eid s.client (runCall s.client s.server a).1 s.server _ :=
        runCall_same a (Ne.symm heid)
      rw [hops]
      constructor
      · rw [hsame.cacheFiles]
        exact (hinv eid).dirty
      · rw [hsame.cacheAttrs]
        exact (hinv eid).attrs
      · rw [hsame.cacheFiles, hsame.cacheAttrs]
        exact (hinv eid).files

/-! ## The flush -/

section Flush

variable {c : extent_client} {s : extent_server} {a : Call} {ops : List Op}

/-- What a `flush` sends, by the history: the dirty content, nothing, or a `remove`. -/
theorem flush_server (h : Slice c a.eid ops) (hop : a.op = .flush) :
    (runCall c s a).2.1
      = match dirtyOf ops with
        | some buf => s.put a.eid buf (a.now 1)
        | none => if known ops then s else (s.remove a.eid).1 := by
  cases hd : dirtyOf ops with
  | some buf => rw [runCall_flush_dirty hop ((h.dirty buf).mpr hd)]
  | none =>
    cases hk : known ops with
    | false =>
      have hx := h.attrs.mpr hk
      have hf : c.cacheFiles a.eid = none := by
        by_contra hf
        exact h.files hf hx
      rw [runCall_flush_unknown hop hf hx]
      rfl
    | true =>
      obtain ⟨x, hx⟩ : ∃ x, c.cacheAttrs a.eid = some x := by
        refine Option.ne_none_iff_exists'.mp fun hnone => ?_
        rw [h.attrs.mp hnone] at hk
        cases hk
      cases hf : c.cacheFiles a.eid with
      | none =>
        rw [runCall_flush_attr hop hf hx]
        rfl
      | some f =>
        obtain ⟨buf, dirty⟩ := f
        cases dirty with
        | false =>
          rw [runCall_flush_clean hop hf]
          rfl
        | true =>
          rw [(h.dirty buf).mp hf] at hd
          cases hd

theorem remove_files_self (s : extent_server) (eid : ℕ) : (s.remove eid).1.files eid = none := by
  unfold extent_server.remove
  split
  · next h => exact h
  · dsimp only
    split
    · exact Function.update_self ..
    · exact Function.update_self ..

/-- The content a `flush` leaves is the one the history asks for exactly when the history
is settled or the server stores nothing. -/
theorem flush_expected_iff (h : Slice c a.eid ops) (hop : a.op = .flush) :
    (runCall c s a).2.1.files a.eid = expected ops (s.files a.eid)
      ↔ Settled ops ∨ s.files a.eid = none := by
  rw [flush_server h hop]
  cases hd : dirtyOf ops with
  | some buf =>
    obtain ⟨hlast, hknown⟩ := dirtyOf_eq_some hd
    have hne : ops ≠ [] := fun hnil => by rw [hnil] at hknown; cases hknown
    have hput : (s.put a.eid buf (a.now 1)).files a.eid = some buf := Function.update_self ..
    simp [expected, Settled, hlast, hput, hne]
  | none =>
    rcases dirtyOf_eq_none hd with hlast | hlast
    · -- nothing was written: the extent must stay
      cases hk : known ops with
      | true =>
        have hne : ops ≠ [] := fun hnil => by rw [hnil] at hk; cases hk
        simp [expected, Settled, hlast, hne]
      | false =>
        have hnil : ops = [] := by
          cases ops with
          | nil => rfl
          | cons op ops =>
            cases op with
            | remove => cases hlast
            | get | getattr | put _ | flush => cases hk
        subst hnil
        have hexp : expected [] (s.files a.eid) = s.files a.eid := rfl
        have hset : ¬ Settled [] := fun h => h.1 rfl
        rw [hexp, or_iff_right hset]
        exact (Eq.congr_left (remove_files_self s a.eid)).trans eq_comm
    · -- the extent was removed: it must go
      have hne : ops ≠ [] := fun hnil => by rw [hnil] at hlast; cases hlast
      cases hk : known ops with
      | true => simp [expected, Settled, hlast, hk]
      | false => simp [expected, Settled, hlast, hk, hne, remove_files_self]

end Flush

/-- **What a flush writes back.** After every run of a client's calls, with any changes by
others in between, a `flush` of `eid` leaves every other extent alone; at `eid` it leaves
the content of the last `put`, no extent after a `remove`, and otherwise what was
stored, exactly when the client's history at `eid` is settled or nothing is stored. If
the client has put and removed nothing since its last `flush` and the history is
settled, the whole server is unchanged. -/
theorem flush_writes_back_iff {server : extent_server} {xs : List Act} {s : System}
    (hrun : Steps.run step (.init server) xs = some s) {a : Call} (hop : a.op = .flush) :
    (∀ id, id ≠ a.eid → (runCall s.client s.server a).2.1.files id = s.server.files id
        ∧ (runCall s.client s.server a).2.1.fileAttrs id = s.server.fileAttrs id)
      ∧ ((runCall s.client s.server a).2.1.files a.eid
            = expected (sinceFlush a.eid s.log) (s.server.files a.eid)
          ↔ Settled (sinceFlush a.eid s.log) ∨ s.server.files a.eid = none)
      ∧ (Settled (sinceFlush a.eid s.log) → lastWrite (sinceFlush a.eid s.log) = none →
          (runCall s.client s.server a).2.1 = s.server) := by
  have hinv : Inv s :=
    Steps.run_inv_all (fun _ _ _ hinv hs => step_inv hinv hs) (inv_init server) hrun
  have hslice := hinv a.eid
  refine ⟨fun id hne => ?_, flush_expected_iff hslice hop, fun hset hlast => ?_⟩
  · have hsame : Same id s.client _ s.server (runCall s.client s.server a).2.1 :=
      runCall_same a hne
    exact ⟨hsame.files, hsame.fileAttrs⟩
  · rw [flush_server hslice hop]
    generalize sinceFlush a.eid s.log = ops at hset hlast hslice
    have hd : dirtyOf ops = none := by
      cases hd : dirtyOf ops with
      | none => rfl
      | some buf =>
        rw [(dirtyOf_eq_some hd).1] at hlast
        cases hlast
    have hk : known ops = true := by
      cases ops with
      | nil => exact absurd rfl hset.1
      | cons op ops =>
        cases op with
        | remove => cases hlast
        | get | getattr | put _ | flush => rfl
    rw [hd, hk]
    rfl

/-- A `put` and a `get` of a new file, and a removal of it by another client. -/
def putGet : List Act :=
  [.call (at0 7 (.put ['x'])), .call (at0 7 .get), .others (.new 0)]

/-- The last content put is stored, whatever the others have done. -/
theorem flush_writes_back_put :
    ∃ s, Steps.run step (.init (.new 0)) putGet = some s
      ∧ Settled (sinceFlush 7 s.log)
      ∧ (runCall s.client s.server (at0 7 .flush)).2.1.files 7 = some ['x'] := by
  have hex : ((Steps.run step (.init (.new 0)) putGet).map fun s => sinceFlush 7 s.log)
      = some [.get, .put ['x']] := by
    decide
  obtain ⟨s, hs, hops⟩ := Steps.exists_run hex
  have hset : Settled (sinceFlush 7 s.log) := by
    rw [hops]
    decide
  have hfiles := (flush_writes_back_iff hs (a := at0 7 .flush) rfl).2.1.mpr (.inl hset)
  refine ⟨s, hs, hset, hfiles.trans ?_⟩
  rw [show (at0 7 .flush).eid = 7 from rfl, hops]
  rfl

/-- What the server stores at `eid` before and after a `flush` at the end of a run. -/
def flushed (xs : List Act) (eid : ℕ) : Option (Option Content × Option Content) :=
  (Steps.run step (.init (.new 0)) xs).map fun s =>
    (s.server.files eid, (runCall s.client s.server (at0 eid .flush)).2.1.files eid)

/-- The flush of an untouched root directory removes it, so does the second of two flushes
in a row with a file just written; a file that was removed and then read stays. -/
theorem flush_loses :
    flushed [] 1 = some (some [], none)
      ∧ flushed [.call (at0 7 (.put ['x'])), .call (at0 7 .flush)] 7 = some (some ['x'], none)
      ∧ flushed [.call (at0 1 .remove), .call (at0 1 .get)] 1 = some (some [], some []) := by
  decide

end Yfs.ExtentFlush
