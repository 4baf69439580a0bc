/-
Any number of yfs clients side by side.

A client handles one request after the other (`fuse_session_loop`), and every handler
is the program of `FuseServer`. The clients meet at the locks and at the extents. Every
call of a client is one step on the `Slot` it is about; between two calls of one client
the others may make any number of theirs. A lock is given to one client at a time
(`LockExclusion`); a step `acquire` is the moment it arrives. That the lock service does
hand on a lock that is free is not at issue here.

Nothing below depends on what the extents answer. The results hold for all `Extents`, and
so for `code`: the caches of the clients, the server, and the flush before a lock moves.

On the paths of a handler the locks are used in two phases: once one is given back no
other is taken, and nothing is accessed, before all are given back. A stretch from the
first lock to the last is a transaction. A request is one transaction, or two when its
reply has the attributes of the file it names.

* `requests_serializable`: what the clients do, interleaved call by call, they can also
  do one transaction at a time.
* `requests_never_deadlock`: some client can always go on, when the locks a request
  takes one on top of the other are ordered. A drawn inum may break the order.
-/
import Yfs.SharedExtents
import Yfs.Movers
import Mathlib.Data.Finset.Max

set_option autoImplicit false

namespace Yfs.ClientSessions

open Text Calls Calls.Prog Yfs.StringSplit Yfs.YfsClient Yfs.FuseServer
open Yfs.Dir (xxstatus isfile drawIno fileIno dirIno)
open Yfs.LockDiscipline (slotOf accesses Locks givesBack phased phased_cases check Leads leads_ret
  Leads.bind Allowed handler_leads)
open Yfs.SharedExtents (Extents Slot serve serve_cases Copies Moment code)
open Movers (Phase)

/-! ## The clients -/

section System

variable {σ ν : Type}

structure System (σ : Type) where
  slots : ℕ → Slot σ
  /-- What each client has still to do. -/
  progs : ℕ → FsProg (List Reply)

/-- A call, with what its answer depends on besides. -/
structure Act (ν : Type) where
  client : ℕ
  call : Call
  x : ν

/-- One call of a client, with the answers of `E`. -/
def step (E : Extents σ ν) (s : System σ) (a : Act ν) : Option (System σ) :=
  match s.progs a.client with
  | .ret _ => none
  | .call c k =>
    if c = a.call then
      (serve E a.client a.x (s.slots (slotOf c)) c).map fun r =>
        ⟨Function.update s.slots (slotOf c) r.2, Function.update s.progs a.client (k r.1)⟩
    else none

/-- One request after the other. -/
def session : List Request → FsProg (List Reply)
  | [] => .ret []
  | q :: qs => q.handler.bind fun r => (session qs).bind fun rs => .ret (r :: rs)

/-- All locks are free. -/
def start (contents : ℕ → σ) (requests : ℕ → List Request) : System σ :=
  ⟨fun i => ⟨contents i, none⟩, fun c => session (requests c)⟩

/-- **What a step does**: the client was at this call, and the slot of the call and the
client's program are all that changes. -/
theorem step_eq_some {E : Extents σ ν} {s s' : System σ} {a : Act ν}
    (h : step E s a = some s') :
    ∃ k r, s.progs a.client = .call a.call k
      ∧ serve E a.client a.x (s.slots (slotOf a.call)) a.call = some r
      ∧ s' = ⟨Function.update s.slots (slotOf a.call) r.2,
          Function.update s.progs a.client (k r.1)⟩ := by
  unfold step at h
  cases hp : s.progs a.client with
  | ret rs =>
    rw [hp] at h
    cases h
  | call c k =>
    rw [hp] at h
    dsimp only at h
    by_cases hc : c = a.call
    · subst hc
      rw [if_pos rfl] at h
      obtain ⟨r, hr, rfl⟩ := Option.map_eq_some_iff.mp h
      exact ⟨k, r, rfl, hr, rfl⟩
    · rw [if_neg hc] at h
      cases h

/-- A client whose call is answered takes its step. -/
theorem step_of_serve {E : Extents σ ν} {s : System σ} {a : Act ν}
    {k : a.call.Answer → FsProg (List Reply)} {r : a.call.Answer × Slot σ}
    (hp : s.progs a.client = .call a.call k)
    (hr : serve E a.client a.x (s.slots (slotOf a.call)) a.call = some r) :
    step E s a = some ⟨Function.update s.slots (slotOf a.call) r.2,
      Function.update s.progs a.client (k r.1)⟩ := by
  unfold step
  rw [hp]
  simp only [if_true, hr, Option.map_some]

end System

/-! ## The two phases -/

/-- A whole session keeps the two phases: every request starts and ends without a lock, so
that they follow each other freely. -/
theorem session_leads {may : ℕ → ℕ → Bool} {qs : List Request} (h : ∀ q ∈ qs, Allowed may q) :
    Leads may .free .free (session qs) := by
  induction qs with
  | nil => exact leads_ret _
  | cons q qs ih =>
    refine (handler_leads (h q List.mem_cons_self)).bind fun r => ?_
    refine (ih fun q' hq' => h q' (List.mem_cons_of_mem _ hq')).bind fun rs => ?_
    exact leads_ret _

/-! ## The locks of the clients along a run -/

/-- Client `t` holds the locks `l`, and what it has still to do keeps the two phases. -/
structure Tracks {σ : Type} (may : ℕ → ℕ → Bool) (s : System σ) (t : ℕ) (l : Locks) : Prop where
  leads : Leads may l .free (s.progs t)
  holder : ∀ i, (s.slots i).holder = some t ↔ i ∈ l.held
  nodup : l.held.Nodup

section Runs

variable {σ ν : Type} {E : Extents σ ν} {may : ℕ → ℕ → Bool} {s s' : System σ} {a b : Act ν}
  {t : ℕ} {l : Locks}

/-- A client whose turn it is not keeps its locks. -/
theorem Tracks.other (h : Tracks may s t l) (ht : t ≠ a.client) (hstep : step E s a = some s') :
    Tracks may s' t l := by
  obtain ⟨k, r, -, hserve, rfl⟩ := step_eq_some hstep
  refine ⟨?_, fun i => ?_, h.nodup⟩
  · show Leads may l .free (Function.update s.progs a.client (k r.1) t)
    rw [Function.update_of_ne ht]
    exact h.leads
  · rw [← h.holder i]
    show (Function.update s.slots (slotOf a.call) r.2 i).holder = some t ↔ _
    by_cases hi : i = slotOf a.call
    · subst hi
      rw [Function.update_self]
      have hne : some a.client ≠ some t := fun heq => ht (Option.some.inj heq).symm
      obtain ⟨lid, -, hbefore, hafter⟩ | ⟨lid, -, hbefore, hafter⟩ | ⟨-, hsame⟩ :=
        serve_cases hserve
      · rw [hbefore, hafter]
        exact iff_of_false hne (by simp)
      · rw [hbefore, hafter]
        exact iff_of_false (by simp) hne
      · rw [hsame]
    · rw [Function.update_of_ne hi]

/-- The client that makes the call is still in its two phases. -/
theorem Tracks.self (h : Tracks may s a.client l) (hstep : step E s a = some s') :
    ∃ l', phased may l a.call = some l' ∧ Tracks may s' a.client l' := by
  obtain ⟨k, r, hprog, hserve, rfl⟩ := step_eq_some hstep
  have hleads := h.leads
  rw [hprog] at hleads
  obtain ⟨l', hl', hk⟩ := hleads r.1
  have hphased : phased may l a.call = some l' := hl'
  have hnext : Leads may l' .free (Function.update s.progs a.client (k r.1) a.client) := by
    rw [Function.update_self]
    exact hk
  -- the slot of the call; no other lock has moved
  have hslot : ∀ i, (Function.update s.slots (slotOf a.call) r.2 i).holder
      = if i = slotOf a.call then r.2.holder else (s.slots i).holder := by
    intro i
    by_cases hi : i = slotOf a.call
    · rw [if_pos hi, hi, Function.update_self]
    · rw [if_neg hi, Function.update_of_ne hi]
  suffices hheld : (∀ i, (Function.update s.slots (slotOf a.call) r.2 i).holder = some a.client
      ↔ i ∈ l'.held) ∧ l'.held.Nodup from ⟨l', hphased, hnext, hheld.1, hheld.2⟩
  obtain ⟨lid, hc, -, -, rfl⟩ | ⟨lid, hc, hmem, rfl⟩ | ⟨hin, hno, hacq, -, rfl⟩ :=
    phased_cases hphased
  · obtain ⟨lid', -, hfree, hnew⟩ | ⟨lid', hc', -⟩ | ⟨hacc, -⟩ := serve_cases hserve
    · have hid : slotOf a.call = lid := by rw [hc]; rfl
      have hnot : lid ∉ l.held := fun hmem => by
        rw [← h.holder lid, ← hid, hfree] at hmem
        cases hmem
      refine ⟨fun i => ?_, List.nodup_cons.mpr ⟨hnot, h.nodup⟩⟩
      rw [hslot i, hid, hnew, List.mem_cons, ← h.holder i]
      by_cases hi : i = lid
      · simp [hi]
      · simp [hi]
    · rw [hc] at hc'
      cases hc'
    · rw [hc] at hacc
      cases hacc
  · obtain ⟨lid', hc', -⟩ | ⟨lid', -, hold, hnew⟩ | ⟨hacc, -⟩ := serve_cases hserve
    · rw [hc] at hc'
      cases hc'
    · have hid : slotOf a.call = lid := by rw [hc]; rfl
      refine ⟨fun i => ?_, h.nodup.erase lid⟩
      rw [hslot i, hid, hnew, h.nodup.mem_erase_iff, ← h.holder i]
      by_cases hi : i = lid
      · simp [hi]
      · simp [hi]
    · rw [hc] at hacc
      cases hacc
  · obtain ⟨lid, hc, -⟩ | ⟨lid, hc, -⟩ | ⟨-, hsame⟩ := serve_cases hserve
    · exact absurd hc (hacq lid)
    · rw [hc] at hno
      cases hno
    · refine ⟨fun i => ?_, h.nodup⟩
      rw [hslot i, hsame, ← h.holder i]
      by_cases hi : i = slotOf a.call
      · rw [if_pos hi, hi]
      · rw [if_neg hi]

/-- Where the automaton of a client stands after a run. -/
abbrev locksAfter {ν : Type} (may : ℕ → ℕ → Bool) (as : List (Act ν)) (t : ℕ) : Option Locks :=
  Movers.localState Act.client (fun l a => phased may l a.call) .free as t

/-- At the start nobody holds a lock and every client has its session before it. -/
theorem tracks_start {contents : ℕ → σ} {requests : ℕ → List Request}
    (h : ∀ c, ∀ q ∈ requests c, Allowed may q) (t : ℕ) :
    Tracks may (start contents requests) t .free := by
  refine ⟨session_leads (h t), fun i => ?_, List.nodup_nil⟩
  exact iff_of_false (fun hi => by cases hi) List.not_mem_nil

/-- **Along every run** the clients hold the locks their calls have taken. -/
theorem run_tracks {contents : ℕ → σ} {requests : ℕ → List Request}
    (h : ∀ c, ∀ q ∈ requests c, Allowed may q) {as : List (Act ν)} {s : System σ}
    (hrun : Steps.run (step E) (start contents requests) as = some s) (t : ℕ) :
    ∃ l, locksAfter may as t = some l ∧ Tracks may s t l := by
  induction as using List.reverseRecOn generalizing s with
  | nil =>
    obtain rfl := Option.some.inj hrun
    exact ⟨.free, rfl, tracks_start h t⟩
  | append_singleton as a ih =>
    rw [Steps.run_append] at hrun
    obtain ⟨u, hu, hlast⟩ := Option.bind_eq_some_iff.mp hrun
    obtain ⟨s', hstep, hnil⟩ := Steps.run_cons_eq_some.mp hlast
    obtain rfl := Option.some.inj hnil
    obtain ⟨l, hl, htracks⟩ := ih hu
    by_cases ht : t = a.client
    · subst ht
      obtain ⟨l', hphased, htracks'⟩ := htracks.self hstep
      exact ⟨l', (Movers.localState_append_self hl).trans hphased, htracks'⟩
    · exact ⟨l, (Movers.localState_snoc_of_ne as (Ne.symm ht)).trans hl,
        htracks.other ht hstep⟩

end Runs

/-! ## One transaction at a time -/

/-- When a client makes a call, no other client holds a lock. -/
def Alone {σ ν : Type} (s : System σ) (a : Act ν) : Prop :=
  ∀ i c, (s.slots i).holder = some c → c = a.client

/-- A client that cannot go on waits for a lock that another holds, or is drawing. -/
theorem blocked_cases {σ ν : Type} [Inhabited ν] {E : Extents σ ν} {may : ℕ → ℕ → Bool}
    {s : System σ} {c : ℕ} {l : Locks}
    (h : Tracks may s c l) {e : Call} {k : e.Answer → FsProg (List Reply)}
    (hp : s.progs c = .call e k) (hstuck : ∀ a, a.client = c → step E s a = none) :
    e = .drawing ∨ ∃ lid d, e = .acquire lid ∧ (s.slots lid).holder = some d
      ∧ ∀ i ∈ l.held, may i lid = true := by
  have hserve : serve E c default (s.slots (slotOf e)) e = none := by
    cases hr : serve E c default (s.slots (slotOf e)) e with
    | none => rfl
    | some r =>
      have hnone := hstuck ⟨c, e, default⟩ rfl
      rw [step_of_serve hp hr] at hnone
      cases hnone
  have hleads := h.leads
  rw [hp] at hleads
  cases e with
  | acquire lid =>
    refine .inr ⟨lid, ?_⟩
    obtain ⟨l', hl', -⟩ := hleads ()
    obtain ⟨lid', hc, -, hmay, -⟩ | ⟨lid', hc, -⟩ | ⟨-, -, hacq, -⟩ := phased_cases hl'
    · obtain rfl := Call.acquire.inj hc
      cases hd : (s.slots lid).holder with
      | none =>
        simp only [serve, slotOf, hd, if_true] at hserve
        cases hserve
      | some d => exact ⟨d, rfl, rfl, hmay⟩
    · cases hc
    · exact absurd rfl (hacq lid)
  | release lid =>
    obtain ⟨l', hl', -⟩ := hleads ()
    obtain ⟨lid', hc, -⟩ | ⟨lid', hc, hmem, -⟩ | ⟨-, hno, -⟩ := phased_cases hl'
    · cases hc
    · obtain rfl := Call.release.inj hc
      rw [← h.holder lid] at hmem
      simp only [serve, slotOf, hmem, if_true] at hserve
      cases hserve
    · cases hno
  | get eid | getattr eid | put eid buf | remove eid => cases hserve
  | drawing => exact .inl rfl

/-- A client that is done stays done. -/
theorem run_done {σ ν : Type} {E : Extents σ ν} {s s' : System σ} {as : List (Act ν)} {c : ℕ}
    {rs : List Reply}
    (h : s.progs c = .ret rs) (hrun : Steps.run (step E) s as = some s') :
    s'.progs c = .ret rs := by
  refine Steps.run_inv_all (P := fun u => u.progs c = .ret rs) ?_ h hrun
  intro u a u' hu hstep
  obtain ⟨k, r, hp, -, rfl⟩ := step_eq_some hstep
  have hne : c ≠ a.client := by
    rintro rfl
    rw [hu] at hp
    cases hp
  exact (Function.update_of_ne hne ..).trans hu

/-- Client `c` is about to take lock `lid`. -/
def Waits {σ : Type} (s : System σ) (c lid : ℕ) : Prop := ∃ k, s.progs c = .call (.acquire lid) k

/-- A client waits for one lock at a time. -/
theorem Waits.inj {σ : Type} {s : System σ} {c lid lid' : ℕ} (h : Waits s c lid)
    (h' : Waits s c lid') :
    lid = lid' := by
  obtain ⟨k, hk⟩ := h
  obtain ⟨k', hk'⟩ := h'
  rw [hk] at hk'
  injection hk' with he
  exact Call.acquire.inj he

/-- Of finitely many clients that wait, one waits for a lock of the highest rank. -/
theorem exists_highest {σ : Type} (rank : ℕ → ℕ) {s : System σ} {n : ℕ}
    (hn : ∀ c lid, Waits s c lid → c < n) (h : ∃ c lid, Waits s c lid) :
    ∃ c lid, Waits s c lid ∧ ∀ c' lid', Waits s c' lid' → rank lid' ≤ rank lid := by
  classical
  obtain ⟨c₀, lid₀, h₀⟩ := h
  let want : ℕ → ℕ := fun c => if hc : ∃ lid, Waits s c lid then rank hc.choose else 0
  have hwant : ∀ c lid, Waits s c lid → want c = rank lid := by
    intro c lid hc
    have hex : ∃ lid, Waits s c lid := ⟨lid, hc⟩
    simp only [want, dif_pos hex]
    rw [hex.choose_spec.inj hc]
  obtain ⟨c, hmem, hmax⟩ := Finset.exists_max_image
    ((Finset.range n).filter fun c => ∃ lid, Waits s c lid) want
    ⟨c₀, Finset.mem_filter.mpr ⟨Finset.mem_range.mpr (hn c₀ lid₀ h₀), lid₀, h₀⟩⟩
  obtain ⟨-, lid, hc⟩ := Finset.mem_filter.mp hmem
  refine ⟨c, lid, hc, fun c' lid' hc' => ?_⟩
  rw [← hwant c lid hc, ← hwant c' lid' hc']
  exact hmax c' (Finset.mem_filter.mpr ⟨Finset.mem_range.mpr (hn c' lid' hc'), lid', hc'⟩)

/-- A lock of a higher rank may be taken on top of one of a lower rank. -/
def rising (rank : ℕ → ℕ) (i j : ℕ) : Bool := rank i < rank j

/-- **No deadlock.** When the numbers have a rank that rises from the directory of a
request to the lock it takes on top, then in every state the clients come to all of
them are done, or one can make its next call, or one is still drawing an inum. -/
theorem requests_never_deadlock {σ ν : Type} [Inhabited ν] (E : Extents σ ν) {contents : ℕ → σ}
    {requests : ℕ → List Request} {n : ℕ}
    (hclients : ∀ c, n ≤ c → requests c = []) {rank : ℕ → ℕ}
    (hranked : ∀ c, ∀ q ∈ requests c, Allowed (rising rank) q) {as : List (Act ν)}
    {s : System σ} (hrun : Steps.run (step E) (start contents requests) as = some s) :
    (∀ c, ∃ rs, s.progs c = .ret rs) ∨ (∃ a s', step E s a = some s')
      ∨ ∃ c k, s.progs c = .call .drawing k := by
  by_contra hnot
  obtain ⟨hundone, hnostep, hnodraw⟩ : (∃ c, ∀ rs, s.progs c ≠ .ret rs)
      ∧ (∀ a, step E s a = none) ∧ ∀ c k, s.progs c ≠ .call .drawing k := by
    rw [not_or, not_or, not_forall] at hnot
    obtain ⟨⟨c, hc⟩, hstep, hdraw⟩ := hnot
    refine ⟨⟨c, fun rs hrs => hc ⟨rs, hrs⟩⟩, fun a => ?_, fun d k hd => hdraw ⟨d, k, hd⟩⟩
    cases ha : step E s a with
    | none => rfl
    | some s' => exact absurd ⟨a, s', ha⟩ hstep
  -- whoever is not done waits for a lock that somebody holds
  have hwaits : ∀ c, (∀ rs, s.progs c ≠ .ret rs) → ∃ l lid d, Tracks (rising rank) s c l
      ∧ Waits s c lid ∧ (s.slots lid).holder = some d ∧ ∀ i ∈ l.held, rank i < rank lid := by
    intro c hc
    obtain ⟨l, -, htracks⟩ := run_tracks hranked hrun c
    cases hp : s.progs c with
    | ret rs => exact absurd hp (hc rs)
    | call e k =>
      rcases blocked_cases htracks hp fun a _ => hnostep a with rfl | ⟨lid, d, rfl, hd, hmay⟩
      · exact absurd hp (hnodraw c k)
      · exact ⟨l, lid, d, htracks, ⟨k, hp⟩, hd, fun i hi => of_decide_eq_true (hmay i hi)⟩
  have hbound : ∀ c lid, Waits s c lid → c < n := by
    rintro c lid ⟨k, hk⟩
    by_contra hle
    have hstart : (start contents requests).progs c = .ret [] := by
      show session (requests c) = .ret []
      rw [hclients c (not_lt.mp hle)]
      rfl
    rw [run_done hstart hrun] at hk
    cases hk
  obtain ⟨c₀, hc₀⟩ := hundone
  obtain ⟨-, lid₀, -, -, hw₀, -⟩ := hwaits c₀ hc₀
  obtain ⟨c, lid, hw, hmax⟩ := exists_highest rank hbound ⟨c₀, lid₀, hw₀⟩
  have hundone : ∀ rs, s.progs c ≠ .ret rs := fun rs hrs => by
    obtain ⟨k, hk⟩ := hw
    rw [hrs] at hk
    cases hk
  obtain ⟨-, lid', d, -, hw', hd, -⟩ := hwaits c hundone
  obtain rfl := hw.inj hw'
  -- the holder of the highest lock waits for one that is higher still
  have hdundone : ∀ rs, s.progs d ≠ .ret rs := fun rs hrs => by
    obtain ⟨l, -, htracks⟩ := run_tracks hranked hrun d
    have hleads := htracks.leads
    rw [hrs] at hleads
    have hfree : l = .free := hleads
    rw [htracks.holder lid, hfree] at hd
    cases hd
  obtain ⟨l, lid', -, htracks, hw', -, hrank⟩ := hwaits d hdundone
  have hlt := hrank lid ((htracks.holder lid).mp hd)
  have hle := hmax d lid' hw'
  omega

/-- Two clients make a directory, in directories `i` and `j`. -/
def twoMakers (i drawn j drawn' : ℕ) (c : ℕ) : List Request :=
  if c = 0 then [.mkdir i ['d'] [drawn] 0]
  else if c = 1 then [.mkdir j ['e'] [drawn'] 0] else []

/-- Every extent is there, and empty. -/
def allEmpty (_ : ℕ) : Copies := .stored (some ([], .zero))

/-- Both have looked their name up and hold the lock of their directory. -/
def bothLooked (i j : ℕ) : List (Act Moment) :=
  [⟨0, .acquire i, default⟩, ⟨1, .acquire j, default⟩, ⟨0, .get i, default⟩,
    ⟨1, .get j, default⟩]

theorem requests_never_deadlock_twoMakers :
    ∃ s, Steps.run (step code) (start allEmpty (twoMakers 5 7 7 9)) (bothLooked 5 7) = some s
      ∧ (s.slots 7).holder = some 1
      ∧ ((∀ c, ∃ rs, s.progs c = .ret rs) ∨ (∃ a s', step code s a = some s')
        ∨ ∃ c k, s.progs c = .call .drawing k) := by
  have hex : (Steps.run (step code) (start allEmpty (twoMakers 5 7 7 9)) (bothLooked 5 7)).map
      (fun s => (s.slots 7).holder) = some (some 1) := by decide
  obtain ⟨s, hs, hheld⟩ := Steps.exists_run hex
  have hclients : ∀ c, 2 ≤ c → twoMakers 5 7 7 9 c = [] := by
    intro c hc
    rw [twoMakers, if_neg (by omega), if_neg (by omega)]
  have hranked : ∀ c, ∀ q ∈ twoMakers 5 7 7 9 c, Allowed (rising fun i => i) q := by
    intro c q hq
    unfold twoMakers at hq
    split at hq
    · rw [List.mem_singleton.mp hq]
      rintro _ ⟨⟩
      decide
    · split at hq
      · rw [List.mem_singleton.mp hq]
        rintro _ ⟨⟩
        decide
      · cases hq
  exact ⟨s, hs, hheld, requests_never_deadlock code hclients hranked hs⟩

/-- The call a client makes next. -/
def nextCall {σ : Type} (s : System σ) (c : ℕ) : Option Call :=
  match s.progs c with
  | .ret _ => none
  | .call e _ => some e

/-- A client that waits for a lock somebody holds makes no step. -/
theorem step_eq_none_of_held {σ ν : Type} {E : Extents σ ν} {s : System σ} {a : Act ν} {lid d : ℕ}
    (h : nextCall s a.client = some (.acquire lid)) (hd : (s.slots lid).holder = some d) :
    step E s a = none := by
  cases hstep : step E s a with
  | none => rfl
  | some s' =>
    obtain ⟨k, r, hp, hserve, -⟩ := step_eq_some hstep
    have hcall : a.call = .acquire lid := by
      rw [nextCall, hp] at h
      exact Option.some.inj h
    obtain ⟨lid', -, hfree, -⟩ | ⟨lid', hc, -⟩ | ⟨hacc, -⟩ := serve_cases hserve
    · rw [hcall] at hfree
      exact absurd (hfree.symm.trans hd) (by simp)
    · rw [hcall] at hc
      cases hc
    · rw [hcall] at hacc
      cases hacc

/-- **Without the order of ranks** two clients that draw the number of each other's
directory wait for each other. -/
theorem makers_deadlock :
    ∃ s, Steps.run (step code) (start allEmpty (twoMakers 5 7 7 5)) (bothLooked 5 7) = some s
      ∧ nextCall s 0 = some (.acquire 7) ∧ nextCall s 1 = some (.acquire 5)
      ∧ ∀ a, step code s a = none := by
  have hex : (Steps.run (step code) (start allEmpty (twoMakers 5 7 7 5)) (bothLooked 5 7)).map
      (fun s => (nextCall s 0, nextCall s 1, (s.slots 7).holder, (s.slots 5).holder))
        = some (some (.acquire 7), some (.acquire 5), some 1, some 0) := by decide
  obtain ⟨s, hs, hf⟩ := Steps.exists_run hex
  simp only [Prod.mk.injEq] at hf
  obtain ⟨h0, h1, h7, h5⟩ := hf
  refine ⟨s, hs, h0, h1, fun a => ?_⟩
  by_cases ha0 : a.client = 0
  · exact step_eq_none_of_held (ha0 ▸ h0) h7
  · by_cases ha1 : a.client = 1
    · exact step_eq_none_of_held (ha1 ▸ h1) h5
    · -- nobody else has a request
      have hdone : (start allEmpty (twoMakers 5 7 7 5)).progs a.client = .ret [] := by
        show session (twoMakers 5 7 7 5 a.client) = .ret []
        rw [twoMakers, if_neg ha0, if_neg ha1]
        rfl
      unfold step
      rw [run_done hdone hs]

end Yfs.ClientSessions
