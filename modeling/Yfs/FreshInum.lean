/-
Creation does not clobber exactly when the drawn inum is not in use (`fuse.cc`).

`fuseserver_createhelper` and `fuseserver_mkdir` draw an inum, again while it is 1, mask
it so that bit 31 says what it is, and `addDirent` puts an empty extent there without
looking whether one exists. `adding_cases` follows both handlers to their results: either
nothing changes, or an entry and an empty extent are put.
-/
import Yfs.FileStore
import Mathlib.Data.Nat.Bitwise

set_option autoImplicit false

namespace Yfs.FreshInum

open Text Calls Calls.Prog Yfs.StringSplit Yfs.YfsClient Yfs.FuseServer Yfs.FileStore
open Yfs.Dir (Files xxstatus dirent isfile drawIno fileIno dirIno direntText)

/-! ## Bit 31 -/

theorem isfile_eq_testBit (inum : ℕ) : isfile inum = inum.testBit 31 := by
  have hand : inum &&& 0x80000000 = (inum.testBit 31).toNat * 2 ^ 31 := Nat.and_two_pow inum 31
  rw [isfile, hand]
  cases inum.testBit 31 with
  | false => rfl
  | true => rfl

theorem isfile_fileIno (r : ℕ) : isfile (fileIno r) = true := by
  rw [isfile_eq_testBit, fileIno, Nat.testBit_or, Nat.testBit_two_pow_self, Bool.or_true]

theorem isdir_dirIno (r : ℕ) : isdir (dirIno r) = true := by
  rw [isdir, isfile_eq_testBit, dirIno, Nat.testBit_and, Nat.testBit_two_pow_sub_one]
  simp

/-! ## The results of the two handlers -/

section Creating

variable {times : ℕ → Extent.attr} {files : Files} {parent : ℕ} {name : Str}

/-- Adding an entry for a drawn inum and reading its attributes. -/
theorem perform_added {α : Type} {ext : Str} {inum : ℕ} {f : xxstatus × stat → α} {a r : α}
    {w : World} (hparent : files parent = some ext)
    (h : perform times ((addDirent parent inum name).bind fun ret' =>
        if ret' = .OK then (FuseServer.getattr inum).bind fun st => ret (f st) else ret a)
      ⟨files, [parent]⟩ = some (r, w)) :
    inum ≠ parent ∧ (∃ st, r = f st)
      ∧ w = ⟨Function.update (Function.update files parent (some (ext ++ direntText name inum)))
          inum (some []), []⟩ := by
  by_cases hself : inum = parent
  · -- the lock of the drawn inum is the one that is held
    subst hself
    have hwait : perform times (addDirent inum inum name) ⟨files, [inum]⟩ = none :=
      perform_bind_none _ (perform_acquire_held List.mem_cons_self)
    rw [perform_bind_none _ hwait] at h
    cases h
  · have hnot : inum ∉ [parent] := by simpa using hself
    have hadd : perform times (addDirent parent inum name) ⟨files, [parent]⟩ = _ :=
      perform_addDirent hnot name
    simp only [Dir.addDirent, hparent] at hadd
    rw [perform_bind hadd, if_pos rfl] at h
    obtain ⟨st, hst⟩ := perform_stat times (Function.update (Function.update files parent
      (some (ext ++ direntText name inum))) inum (some [])) (List.not_mem_nil : inum ∉ [])
    rw [perform_bind hst, perform_ret] at h
    obtain ⟨rfl, rfl⟩ := Prod.mk.inj (Option.some.inj h)
    exact ⟨hself, ⟨st, rfl⟩, rfl⟩

variable {draws : List ℕ} {ino : ℕ}

/-- What an operation that goes on after `lookup` finds. -/
theorem perform_lookup_bind {α : Type} {f : xxstatus × Bool × ℕ → FsProg α} :
    perform times ((lookup name parent ino false).bind f) ⟨files, []⟩
      = perform times (f (Dir.lookup files name parent ino))
          ⟨files, if files parent ≠ none then [parent] else []⟩ := by
  rw [perform_bind (perform_lookup List.not_mem_nil name ino false)]
  simp only [and_true]

/-- Such an operation changes nothing, or adds an entry for a drawn inum and puts an
empty extent there. -/
theorem adding_cases {α : Type} {inumOf : ℕ → ℕ} {exist failed : α} {lost : xxstatus → α}
    {ok : ℕ → xxstatus × stat → α} {r : α} {w : World}
    (h : perform times (adding parent name draws ino inumOf exist failed lost ok) ⟨files, []⟩
      = some (r, w)) :
    ((r = exist ∨ r = lost .NOENT) ∧ w = ⟨files, []⟩)
      ∨ ∃ ext drawn st, files parent = some ext ∧ drawIno draws = some drawn
        ∧ inumOf drawn ≠ parent ∧ r = ok (inumOf drawn) st
        ∧ w = ⟨Function.update (Function.update files parent
            (some (ext ++ direntText name (inumOf drawn)))) (inumOf drawn) (some []), []⟩ := by
  have h := perform_lookup_bind.symm.trans h
  cases hparent : files parent with
  | none =>
    simp only [Dir.lookup, hparent] at h
    obtain ⟨rfl, rfl⟩ := Prod.mk.inj (Option.some.inj h)
    exact .inl ⟨.inr rfl, rfl⟩
  | some ext =>
    simp only [Dir.lookup, hparent] at h
    rw [if_pos trivial, if_pos (Option.some_ne_none ext)] at h
    split at h
    · have hrel := (perform_release_ret parent _).symm.trans h
      obtain ⟨rfl, rfl⟩ := Prod.mk.inj (Option.some.inj hrel)
      exact .inl ⟨.inl rfl, rfl⟩
    · cases hdraw : drawIno draws with
      | none =>
        rw [hdraw] at h
        cases h
      | some drawn =>
        rw [hdraw] at h
        obtain ⟨hne, ⟨st, rfl⟩, rfl⟩ := perform_added hparent h
        exact .inr ⟨ext, drawn, st, rfl, rfl, hne, rfl, rfl⟩

/-- The two puts of a creation, seen from the other extents. -/
theorem added_of_ne {ext : Str} {inum eid : ℕ} (hparent : eid ≠ parent) (hinum : eid ≠ inum) :
    Function.update (Function.update files parent (some (ext ++ direntText name inum)))
      inum (some []) eid = files eid := by
  rw [Function.update_of_ne hinum, Function.update_of_ne hparent]

/-- A creation leaves the existing extents alone exactly when there is nothing to lose
at the drawn inum. -/
theorem added_keeps_iff {ext : Str} {inum : ℕ} (hne : inum ≠ parent) :
    (∀ eid, eid ≠ parent → files eid ≠ none →
        Function.update (Function.update files parent (some (ext ++ direntText name inum)))
          inum (some []) eid = files eid)
      ↔ files inum = none ∨ files inum = some [] := by
  constructor
  · intro hkeep
    by_cases hnone : files inum = none
    · exact .inl hnone
    · have hsame := hkeep inum hne hnone
      rw [Function.update_self] at hsame
      exact .inr hsame.symm
  · intro hempty eid hparent hsome
    by_cases heq : eid = inum
    · subst heq
      rw [Function.update_self, hempty.resolve_left hsome]
    · exact added_of_ne hparent heq

end Creating

/-! ## Creation -/

/-- A creation under `parent` that has assigned `inum` and left `files'` has clobbered
nothing: no extent had this inum, and all extents but the parent's are as they were. -/
def ClobbersNothing (files files' : Files) (parent inum : ℕ) : Prop :=
  files inum = none ∧ ∀ eid, eid ≠ parent → files eid ≠ none → files' eid = files eid

theorem clobbersNothing_iff {files : Files} {parent inum : ℕ} {name ext : Str}
    (hne : inum ≠ parent) :
    ClobbersNothing files (Function.update (Function.update files parent
        (some (ext ++ direntText name inum))) inum (some [])) parent inum
      ↔ files inum = none :=
  ⟨fun h => h.1, fun h => ⟨h, (added_keeps_iff hne).mpr (.inl h)⟩⟩

/-- **Creation clobbers exactly if the drawn inum is in use.** For every state of the store
and every sequence of drawn values, a creation that succeeds assigns an inum of the right
kind, made from the value drawn. It leaves all existing extents alone exactly if no extent
has that inum; their contents alone it keeps also where that extent was empty. -/
theorem creation_never_clobbers_iff (times : ℕ → Extent.attr) (files : Files) (parent : ℕ)
    (name : Str) (draws : List ℕ) (ino : ℕ) :
    (∀ e w, perform times (fuseserver_createhelper parent name draws ino) ⟨files, []⟩
          = some ((.OK, e), w) →
        ∃ p drawn, e = some p ∧ drawIno draws = some drawn ∧ isfile p.ino = true
          ∧ (ClobbersNothing files w.files parent p.ino ↔ files (fileIno drawn) = none)
          ∧ ((∀ eid, eid ≠ parent → files eid ≠ none → w.files eid = files eid)
            ↔ files (fileIno drawn) = none ∨ files (fileIno drawn) = some []))
      ∧ ∀ p w, perform times (fuseserver_mkdir parent name draws ino) ⟨files, []⟩
          = some (.entry p, w) →
        ∃ drawn, drawIno draws = some drawn ∧ isdir p.ino = true
          ∧ (ClobbersNothing files w.files parent p.ino ↔ files (dirIno drawn) = none)
          ∧ ((∀ eid, eid ≠ parent → files eid ≠ none → w.files eid = files eid)
            ↔ files (dirIno drawn) = none ∨ files (dirIno drawn) = some []) := by
  constructor
  · intro e w h
    rw [createhelper_eq] at h
    rcases adding_cases h with ⟨hr, -⟩ | ⟨ext, drawn, st, -, hdrawn, hne, hr, rfl⟩
    · rcases hr with hr | hr
      · cases (Prod.mk.inj hr).1
      · cases (Prod.mk.inj hr).1
    · obtain ⟨-, rfl⟩ := Prod.mk.inj hr
      exact ⟨_, drawn, rfl, hdrawn, isfile_fileIno drawn, clobbersNothing_iff hne,
        added_keeps_iff hne⟩
  · intro p w h
    rw [mkdir_eq] at h
    rcases adding_cases h with ⟨hr, -⟩ | ⟨ext, drawn, st, -, hdrawn, hne, hr, rfl⟩
    · rcases hr with hr | hr
      · cases hr
      · cases hr
    · obtain rfl := Reply.entry.inj hr
      exact ⟨drawn, hdrawn, isdir_dirIno drawn, clobbersNothing_iff hne, added_keeps_iff hne⟩

/-! ## A collision -/

/-- The store after a request has been served; `none` if the handler does not return. -/
def step (times : ℕ → Extent.attr) (files : Files) (q : Request) : Option Files :=
  (perform times q.handler ⟨files, []⟩).map fun r => r.2.files

/-- A server that has just started: the root directory is empty. -/
def init : Files := Function.update (fun _ => none) 1 (some [])

/-- `f` is created, one byte is written to it, and `g` is created with the same draw. -/
def collision : List Request :=
  [.create 1 ['f'] [5] 0, .write 2147483653 ['x'] 1 0, .create 1 ['g'] [5] 0]

/-- With another draw, `g` is created beside `f`, whose byte stays. -/
theorem creation_never_clobbers_iff_beside :
    ∃ files e w, Steps.run (step fun _ => ⟨0, 0, 0, 0⟩) init (collision.take 2) = some files
      ∧ perform (fun _ => ⟨0, 0, 0, 0⟩) (fuseserver_createhelper 1 ['g'] [6] 0) ⟨files, []⟩
        = some ((.OK, some e), w)
      ∧ isfile e.ino = true ∧ files 2147483653 = some ['x'] ∧ w.files 2147483653 = some ['x']
      ∧ ClobbersNothing files w.files 1 e.ino := by
  have hex : ((Steps.run (step fun _ => ⟨0, 0, 0, 0⟩) init (collision.take 2)).bind fun files =>
      (perform (fun _ => ⟨0, 0, 0, 0⟩) (fuseserver_createhelper 1 ['g'] [6] 0) ⟨files, []⟩).map
        fun r => (r.1.1, files 2147483653, files (fileIno 6)))
      = some (.OK, some ['x'], none) := by
    decide
  obtain ⟨files, hfiles, hex⟩ := Option.bind_eq_some_iff.mp hex
  obtain ⟨⟨⟨st, e⟩, w⟩, hperform, hst⟩ := Option.map_eq_some_iff.mp hex
  obtain ⟨rfl, hx, hunused⟩ : st = .OK ∧ _ := by simpa only [Prod.mk.injEq] using hst
  obtain ⟨p, drawn, rfl, hdrawn, hfile, hclobbers, -⟩ :=
    (creation_never_clobbers_iff _ files 1 ['g'] [6] 0).1 e w hperform
  obtain rfl : 6 = drawn := Option.some.inj hdrawn
  have hnothing := hclobbers.mpr hunused
  refine ⟨files, p, w, hfiles, hperform, hfile, hx, ?_, hnothing⟩
  rw [hnothing.2 2147483653 (by decide) (by rw [hx]; exact Option.some_ne_none _), hx]

/-- The byte is there before the second creation and gone after it. -/
theorem creation_clobbers :
    ((Steps.run (step fun _ => ⟨0, 0, 0, 0⟩) init (collision.take 2)).map fun f => f 2147483653)
        = some (some ['x'])
      ∧ ((Steps.run (step fun _ => ⟨0, 0, 0, 0⟩) init collision).map fun f => f 2147483653)
        = some (some []) := by
  decide

end Yfs.FreshInum
