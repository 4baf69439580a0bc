/-
Names do not interfere (`yfs_client.cc`, `fuse.cc`, `split.h`), as long as the names
that are created can be told apart in the text.

A name is written into the directory as it is. A name with a `:` or a `|` in it is read
back as something else: as an entry of another name, or as no entry at all. So the
condition is on the names that `create` and `mkdir` bring in; a lookup or an unlink of
any other string finds nothing and changes nothing.

The invariant of `DirRun` asks for storable names in every action. Here a client that
holds the lock for an unlink may have asked for any name.
-/
import Yfs.DirRun

set_option autoImplicit false

namespace Yfs.DirNames

open Text Yfs.StringSplit Yfs.Dir Yfs.DirRun

/-! ## The name an operation is about -/

/-- The operation adds an entry. -/
def creates : Op → Bool
  | .create _ => true
  | .mkdir _ => true
  | .unlink => false
  | .fuseserver_unlink => false

/-- The names an action creates can be stored. -/
def CreatesOk : Act → Prop
  | .begin _ name op _ => creates op = true → NameOk name
  | _ => True

instance : DecidablePred CreatesOk
  | .begin _ name op _ => inferInstanceAs (Decidable (creates op = true → NameOk name))
  | .lookup _ _ => .isTrue trivial
  | .readDir _ => .isTrue trivial
  | .finish => .isTrue trivial

/-- The name in a reply; a listing has none. -/
def eventName : Event → Option Str
  | .looked name _ _ _ => some name
  | .listed _ _ => none
  | .created name _ _ => some name
  | .made name _ _ => some name
  | .unlinked name _ => some name
  | .fuse_unlinked name _ => some name

/-- A reply changes the map at its own name only. -/
theorem effect_of_ne (m : DirMap) {e : Event} {name b : Str} (he : eventName e = some name)
    (hb : b ≠ name) : effect m e b = m b := by
  cases e with
  | looked n ret found child => rfl
  | listed ret ds => cases he
  | created n ret ino =>
    obtain rfl := Option.some.inj he
    cases ret with
    | OK => exact Function.update_of_ne hb ..
    | RPCERR | NOENT | IOERR | EXIST => rfl
  | made n err ino =>
    obtain rfl := Option.some.inj he
    cases err with
    | success => exact Function.update_of_ne hb ..
    | EEXIST | ENOENT | ENOSYS => rfl
  | unlinked n err | fuse_unlinked n err =>
    obtain rfl := Option.some.inj he
    cases err with
    | success => exact Function.update_of_ne hb ..
    | EEXIST | ENOENT | ENOSYS => rfl

section Finish

variable {files : Files} {dir : ℕ} {p : Pending} {r : Files × Event}

/-- The second half of an operation replies about the name of the first half. -/
theorem finish_name (hr : finish files dir p = some r) : eventName r.2 = some p.name := by
  unfold finish at hr
  split at hr
  · unfold createhelper at hr
    split at hr
    · obtain rfl := Option.some.inj hr
      rfl
    · obtain ⟨a, -, rfl⟩ := Option.map_eq_some_iff.mp hr
      rfl
  · unfold mkdir at hr
    split at hr
    · obtain rfl := Option.some.inj hr
      rfl
    · obtain ⟨a, -, rfl⟩ := Option.map_eq_some_iff.mp hr
      rfl
  · split at hr
    · obtain ⟨a, -, rfl⟩ := Option.map_eq_some_iff.mp hr
      rfl
    · obtain rfl := Option.some.inj hr
      rfl
  · split at hr
    · split at hr
      · obtain ⟨a, -, rfl⟩ := Option.map_eq_some_iff.mp hr
        rfl
      · obtain rfl := Option.some.inj hr
        rfl
    · obtain rfl := Option.some.inj hr
      rfl

/-- An unlink of a name that was not found changes nothing. -/
theorem finish_not_found (hop : creates p.op = false) (hfound : p.found = false)
    (hr : finish files dir p = some r) : r.1 = files ∧ ∀ m, effect m r.2 = m := by
  unfold finish at hr
  rw [hfound] at hr
  split at hr
  · next h =>
    rw [h] at hop
    cases hop
  · next h =>
    rw [h] at hop
    cases hop
  · obtain rfl := Option.some.inj hr
    exact ⟨rfl, fun _ => rfl⟩
  · obtain rfl := Option.some.inj hr
    exact ⟨rfl, fun _ => rfl⟩

/-! ## The second half, whatever the name -/

/-- What `lookup` told the client that holds the lock still is the case, and the name
can be stored if it is going to be. -/
structure Seen (m : DirMap) (p : Pending) : Prop where
  found : p.found = (m p.name).isSome
  ino : ∀ i, m p.name = some i → p.ino = i
  name : creates p.op = true → NameOk p.name

theorem finish_represents {m : DirMap} {ds : List dirent} (hf : files dir = some (encode ds))
    (h : Represents m ds) (hp : Seen m p) (hr : finish files dir p = some r) :
    ∃ ds', r.1 dir = some (encode ds') ∧ Represents (effect m r.2) ds' := by
  by_cases hname : NameOk p.name
  · exact (finish_finished hf h ⟨hname, hp.found, hp.ino⟩ hr).1
  · -- such a name is not in the directory and the operation does not create it
    have hop : creates p.op = false := by
      cases hc : creates p.op with
      | false => rfl
      | true => exact absurd (hp.name hc) hname
    have hnone : m p.name = none := by
      cases hm : m p.name with
      | none => rfl
      | some i => exact absurd (h.entries _ ((h.lists.2 p.name i).mpr hm)).1 hname
    have hfound : p.found = false := by
      rw [hp.found, hnone]
      rfl
    obtain ⟨hsame, heffect⟩ := finish_not_found hop hfound hr
    rw [hsame, heffect]
    exact ⟨ds, hf, h⟩

end Finish

/-! ## Runs -/

/-- The text lists the reference map, and the holder's lookup is up to date. -/
structure Inv (dir : ℕ) (s : System) : Prop where
  text : ∃ ds, s.files dir = some (encode ds) ∧ Represents (reference s.log) ds
  holder : ∀ p, s.holder = some p → Seen (reference s.log) p

/-- A step that only adds a reply without an effect. -/
theorem inv_logged {dir : ℕ} {s : System} {e : Event} (hinv : Inv dir s)
    (he : effect (reference s.log) e = reference s.log) :
    Inv dir { s with log := s.log ++ [e] } := by
  refine ⟨?_, ?_⟩
  · rw [reference_append, he]
    exact hinv.text
  · rw [reference_append, he]
    exact hinv.holder

theorem step_inv {dir : ℕ} {s : System} {a : Act} {s' : System} (hinv : Inv dir s)
    (hname : CreatesOk a) (hs : step dir s a = some s') : Inv dir s' := by
  obtain ⟨ds, hf, hrep⟩ := hinv.text
  cases a with
  | lookup name ino =>
    simp only [step] at hs
    split at hs
    · obtain rfl := Option.some.inj hs
      exact inv_logged hinv rfl
    · cases hs
  | readDir junk =>
    simp only [step] at hs
    split at hs
    · obtain rfl := Option.some.inj hs
      exact inv_logged hinv rfl
    · cases hs
  | «begin» client name op ino =>
    simp only [step] at hs
    split at hs
    · simp only [lookup_represents hf hrep, if_true] at hs
      obtain rfl := Option.some.inj hs
      refine ⟨⟨ds, hf, hrep⟩, ?_⟩
      rintro p ⟨rfl⟩
      refine ⟨rfl, fun i hi => ?_, hname⟩
      simp only [hi, Option.getD_some]
    · cases hs
  | finish =>
    simp only [step] at hs
    split at hs
    · cases hs
    · next p hp =>
      obtain ⟨r, hr, rfl⟩ := Option.map_eq_some_iff.mp hs
      refine ⟨?_, fun p h => by cases h⟩
      rw [reference_append]
      exact finish_represents hf hrep (hinv.holder p hp) hr

theorem inv_of_run {files : Files} {dir : ℕ} {as : List Act} {s : System}
    (hnames : ∀ a ∈ as, CreatesOk a)
    (hrun : Steps.run (step dir) (System.init files dir) as = some s) : Inv dir s := by
  have hinit : Inv dir (System.init files dir) :=
    ⟨⟨[], Function.update_self .., represents_nil⟩, fun p h => by cases h⟩
  exact Steps.run_inv_forall (fun s a s' hinv hname hs => step_inv hinv hname hs) hinit hnames hrun

/-! ## One operation after another -/

section Inv

variable {dir : ℕ} {s : System}

theorem lookup_of_inv (hinv : Inv dir s) (name : Str) (child : ℕ) :
    lookup s.files name dir child
      = (.OK, (reference s.log name).isSome, (reference s.log name).getD child) := by
  obtain ⟨ds, hf, hrep⟩ := hinv.text
  exact lookup_represents hf hrep name child

/-- A name is listed iff the map has it. -/
theorem listed_of_inv (hinv : Inv dir s) (name : Str) (junk : ℕ) :
    name ∈ (readDir s.files dir junk).2.map dirent.name ↔ reference s.log name ≠ none := by
  obtain ⟨ds, hf, hrep⟩ := hinv.text
  rw [readDir_represents hf hrep, List.mem_map]
  constructor
  · rintro ⟨⟨n, i⟩, hmem, rfl⟩
    rw [(hrep.lists.2 n i).mp hmem]
    exact Option.some_ne_none i
  · intro hne
    obtain ⟨i, hi⟩ := Option.ne_none_iff_exists'.mp hne
    exact ⟨⟨name, i⟩, (hrep.lists.2 name i).mpr hi, rfl⟩

/-- The two halves of an operation, from a state where nobody holds the lock. -/
theorem begin_finish {client : ℕ} {name : Str} {op : Op} {ino : ℕ} {s' : System}
    (hinv : Inv dir s)
    (hop : Steps.run (step dir) s [.begin client name op ino, .finish] = some s') :
    ∃ r, finish s.files dir ⟨client, name, op, (reference s.log name).isSome,
        (reference s.log name).getD ino⟩ = some r ∧ s' = ⟨r.1, none, s.log ++ [r.2]⟩ := by
  obtain ⟨s₁, hbegin, hrest⟩ := Steps.run_cons_eq_some.mp hop
  obtain ⟨s₂, hfinish, hnil⟩ := Steps.run_cons_eq_some.mp hrest
  obtain rfl := Option.some.inj hnil
  simp only [step] at hbegin
  split at hbegin
  · simp only [lookup_of_inv hinv, if_true] at hbegin
    obtain rfl := Option.some.inj hbegin
    obtain ⟨r, hr, rfl⟩ := Option.map_eq_some_iff.mp hfinish
    exact ⟨r, hr, rfl⟩
  · cases hbegin

end Inv

/-- **Names do not interfere.** In every run whose created names can be stored: an
operation on `a`, with any name if it is an unlink, changes neither what a lookup of
another name returns nor whether it is listed. After a creation of `a` a lookup finds
exactly the new inum, and another creation is refused. -/
theorem names_do_not_interfere {files : Files} {dir : ℕ} {as : List Act} {s : System}
    (hnames : ∀ x ∈ as, CreatesOk x)
    (hrun : Steps.run (step dir) (System.init files dir) as = some s)
    {client : ℕ} {a : Str} {op : Op} {ino : ℕ} {s' : System}
    (ha : CreatesOk (.begin client a op ino))
    (hop : Steps.run (step dir) s [.begin client a op ino, .finish] = some s') :
    (∀ b, b ≠ a →
        (∀ child, lookup s'.files b dir child = lookup s.files b dir child)
          ∧ ∀ junk, b ∈ (readDir s'.files dir junk).2.map dirent.name
              ↔ b ∈ (readDir s.files dir junk).2.map dirent.name)
      ∧ ∀ new, s'.log = s.log ++ [.created a .OK new] ∨ s'.log = s.log ++ [.made a .success new] →
          (∀ child, lookup s'.files a dir child = (.OK, true, new))
            ∧ ∀ client' draws ino',
                Steps.run (step dir) s' [.begin client' a (.create draws) ino', .finish]
                  = some ⟨s'.files, none, s'.log ++ [.created a .EXIST new]⟩ := by
  have hinv : Inv dir s := inv_of_run hnames hrun
  have hinv' : Inv dir s' := by
    refine Steps.run_inv_forall (fun s a s' hinv hname hs => step_inv hinv hname hs) hinv ?_ hop
    intro x hx
    rcases List.mem_cons.mp hx with rfl | hx
    · exact ha
    · rw [List.mem_singleton.mp hx]
      trivial
  obtain ⟨r, hr, rfl⟩ := begin_finish hinv hop
  have hlog : reference (s.log ++ [r.2]) = effect (reference s.log) r.2 := reference_append ..
  refine ⟨fun b hb => ?_, fun new hnew => ?_⟩
  · have hsame : reference (s.log ++ [r.2]) b = reference s.log b := by
      rw [hlog]
      exact effect_of_ne _ (finish_name hr) hb
    refine ⟨fun child => ?_, fun junk => ?_⟩
    · rw [lookup_of_inv hinv', lookup_of_inv hinv, hsame]
    · rw [listed_of_inv hinv', listed_of_inv hinv, hsame]
  · have hnew : reference (s.log ++ [r.2]) a = some new := by
      rw [hlog]
      rcases hnew with hnew | hnew
      · rw [List.singleton_inj.mp (List.append_cancel_left hnew)]
        exact Function.update_self ..
      · rw [List.singleton_inj.mp (List.append_cancel_left hnew)]
        exact Function.update_self ..
    have hlookup : ∀ child, lookup r.1 a dir child = (.OK, true, new) := by
      intro child
      rw [lookup_of_inv hinv', hnew]
      rfl
    refine ⟨hlookup, fun client' draws ino' => ?_⟩
    simp only [Steps.run, step, hlookup]
    rfl

/-- `a` exists, an unlink of a string that cannot be a name finds nothing, and `b` is
made next to `a`. -/
def oneName : List Act :=
  [.begin 0 ['a'] (.create [5]) 0, .finish, .begin 1 ['a', ':'] .fuseserver_unlink 0, .finish]

theorem names_do_not_interfere_oneName :
    ∃ s s', Steps.run (step 1) (System.init (fun _ => none) 1) oneName = some s
      ∧ Steps.run (step 1) s [.begin 2 ['b'] (.mkdir [9]) 0, .finish] = some s'
      ∧ (∀ child, lookup s'.files ['a'] 1 child = lookup s.files ['a'] 1 child)
      ∧ ∀ child, lookup s'.files ['b'] 1 child = (.OK, true, 9) := by
  have hex : ((Steps.run (step 1) (System.init (fun _ => none) 1) oneName).bind fun s =>
      (Steps.run (step 1) s [.begin 2 ['b'] (.mkdir [9]) 0, .finish]).map fun s' =>
        (s.log, s'.log))
      = some ([.created ['a'] .OK 2147483653, .fuse_unlinked ['a', ':'] .ENOENT],
          [.created ['a'] .OK 2147483653, .fuse_unlinked ['a', ':'] .ENOENT,
            .made ['b'] .success 9]) := by
    decide
  obtain ⟨s, s', hs, hs', heq⟩ := Steps.exists_run_run hex
  obtain ⟨hlog, hlog'⟩ := Prod.mk.inj heq
  obtain ⟨hother, hnew⟩ := names_do_not_interfere (by decide) hs (by decide) hs'
  refine ⟨s, s', hs, hs', (hother ['a'] (by decide)).1, (hnew 9 (.inr ?_)).1⟩
  rw [hlog, hlog']
  rfl

/-- Creating the name `b:7|` in an empty directory makes a lookup of `b` find inum 7,
and a lookup of the created name finds nothing. -/
theorem name_interferes :
    ((Steps.run (step 1) (System.init (fun _ => none) 1)
        [.begin 0 ['b', ':', '7', '|'] (.create [5]) 0, .finish]).map fun s =>
        (s.log, lookup s.files ['b'] 1 0, lookup s.files ['b', ':', '7', '|'] 1 0))
      = some ([.created ['b', ':', '7', '|'] .OK 2147483653], (.OK, true, 7), (.OK, false, 0))
      ∧ lookup (System.init (fun _ => none) 1).files ['b'] 1 0 = (.OK, false, 0) := by
  decide

end Yfs.DirNames
