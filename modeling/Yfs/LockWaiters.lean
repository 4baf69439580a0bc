/-
No thread of the lock service is left waiting.

A thread that is blocked in `acquire` waits for something that another thread has still
to do: a `revoke` that has to reach the client with the lock, a `retry` that has to reach
the client that is next, a signal for a condition variable. None of these is lost, and so
a lock for which nothing is under way and which nobody holds has nobody waiting for it.
-/
import Yfs.LockLively
import Yfs.LockClients
import Yfs.LockRevocation

set_option autoImplicit false

namespace Yfs.LockWaiters

open Text Yfs.LockSystem Yfs.LockProtocol Yfs.LockExclusion
open Yfs.LockLively Yfs.LockClients Yfs.LockRevocation
open Yfs.LockServer (GrantedTo waiting)
open Yfs.LockClient (pthread)

variable {l l' : Lock} {x : Tid}

/-! ## All together -/

structure Live (l : Lock) : Prop where
  lively : Lively (view l)
  clients : ClientsOk l
  revoke : RevokeOk l

theorem live_new : Live .new where
  lively := by
    refine ⟨nofun, nofun, nofun, ?_, ?_, nofun⟩
    · rintro c ⟨e, he, -⟩
      cases he
    · rintro c ⟨e, he, -⟩
      cases he
  clients c := by
    refine ⟨fun t => ?_, nofun, nofun, nofun, nofun, nofun, nofun, fun _ hne => ?_, nofun, nofun⟩
    · simp [Lock.entry, Lock.new, LockClient.lockInfo.zero, waits]
    · exact absurd rfl hne
  revoke := by
    rintro c ⟨e, he, -⟩
    cases he

/-! ### What the view of a step needs -/

theorem server_releaseStep {r r' : Release} (hs : releaseStep l r = some (l', r')) :
    ServerStep l.server l'.server := by
  cases r with
  | sent =>
    cases hs
    exact .inr (.inr rfl)
  | front =>
    obtain ⟨dst, -, heq⟩ := Option.map_eq_some_iff.mp hs
    cases heq
    exact .inl rfl
  | retry dst =>
    cases hs
    exact .inl rfl
  | replied => cases hs

theorem server_revokeStep {c : Str} {r : Revoke} {o : Option Revoke}
    (hs : revokeStep l x c r = some (l', o)) : ServerStep l.server l'.server := by
  cases r with
  | sent =>
    cases hs
    exact .inl rfl
  | release r =>
    by_cases hrep : r = .replied
    · subst hrep
      cases hs
      exact .inl rfl
    · rw [revokeStep_release hrep] at hs
      obtain ⟨⟨l'', r'⟩, hr, heq⟩ := Option.map_eq_some_iff.mp hs
      cases heq
      exact server_releaseStep hr

theorem server_acquireStep {a a' : Acquire} (hs : acquireStep l x a = some (l', a')) :
    ServerStep l.server l'.server := by
  cases a with
  | sent =>
    cases hs
    exact .inr (.inl ⟨x.1, rfl⟩)
  | holder =>
    obtain ⟨e, -, heq⟩ := Option.map_eq_some_iff.mp hs
    cases heq
    exact .inl rfl
  | revoke ret c r =>
    obtain ⟨⟨l'', o⟩, hr, heq⟩ := Option.map_eq_some_iff.mp hs
    cases heq
    exact server_revokeStep hr
  | replied ret => cases hs

theorem server_goOn (r : LockClient.lockInfo × LockClient.Next) :
    (l.goOn x r).server = l.server := by
  obtain ⟨e, next⟩ := r
  cases next <;> rfl

theorem server_threadStep {p : Pc} (hs : l.threadStep x p = some l') :
    ServerStep l.server l'.server := by
  cases ran_of_threadStep hs with
  | lock_loop => exact .inl (server_goOn _)
  | none_loop => exact .inl (server_goOn _)
  | retry_loop => exact .inl rfl
  | maybeRetry => exact .inl rfl
  | locked => exact .inl rfl
  | lost => exact .inl rfl
  | call _ hr =>
    have hserver := server_acquireStep hr
    exact hserver
  | released => exact .inl rfl
  | release hr =>
    have hserver := server_releaseStep hr
    exact hserver

/-- Only thread `x` moves, so only what it gives back is to be looked at. -/
theorem keeps_of (hothers : ∀ y, y ≠ x → l'.thread y = l.thread y)
    (hx : ∀ g, (view l).giving x = some g → (view l').state g.client = .NONE
      ∨ ∃ g', (view l').giving x = some g' ∧ g'.client = g.client) :
    Keeps (view l) (view l') := by
  intro y g hy
  by_cases hyx : y = x
  · subst hyx
    exact hx g hy
  · refine .inr ⟨g, ?_, rfl⟩
    show (l'.thread y).bind (pcGiving y) = some g
    rw [hothers y hyx]
    exact hy

theorem state_released (e : LockClient.lockInfo) (self : pthread) {c : Str} :
    (view (l.setClient c (LockClient.released e self))).state c = .NONE := by
  rw [view_setClient]
  simp only [Function.update_self]
  exact (released_entry e self).1

/-- A call that gives a lock back goes on with it. -/
theorem keeps_call {a a' : Acquire} {q : Acquire → Pc}
    (hq : ∀ a, pcGiving x (q a) = acquireGiving x a) (hx : l.thread x = some (q a))
    (hr : acquireStep l x a = some (l', a')) :
    Keeps (view l) (view (l'.setThread x (some (q a')))) := by
  refine keeps_of (x := x) (fun y hy => ?_) fun g hg => ?_
  · rw [thread_setThread hy, thread_acquireStep hr]
  have hg : acquireGiving x a = some g := by
    rw [← hq, ← hg]
    simp only [view, hx, Option.bind_some]
  cases a with
  | sent => cases hg
  | holder => cases hg
  | replied ret => cases hg
  | revoke ret c r =>
    cases r with
    | sent => cases hg
    | release r =>
      cases hg
      obtain ⟨⟨l₁, o⟩, hrev, heq⟩ := Option.map_eq_some_iff.mp hr
      by_cases hrep : r = .replied
      · subst hrep
        cases hrev
        cases heq
        exact .inl (state_released (l.entry c) _)
      · rw [revokeStep_release hrep] at hrev
        obtain ⟨⟨l₂, r'⟩, -, heq'⟩ := Option.map_eq_some_iff.mp hrev
        cases heq'
        cases heq
        refine .inr ⟨⟨c, .handler x.1 x.2, r'⟩, ?_, rfl⟩
        rw [view_setThread]
        simp only [Function.update_self, Option.bind_some, hq]
        rfl

theorem keeps_threadStep {p : Pc} (hx : l.thread x = some p) (hs : l.threadStep x p = some l') :
    Keeps (view l) (view l') := by
  have hothers : ∀ y, y ≠ x → l'.thread y = l.thread y := fun y hy => thread_threadStep hs hy
  have hgiving : (view l).giving x = pcGiving x p := by simp only [view, hx, Option.bind_some]
  have hnone : pcGiving x p = none → Keeps (view l) (view l') := by
    intro hp
    refine keeps_of hothers fun g hg => ?_
    rw [hgiving, hp] at hg
    cases hg
  cases ran_of_threadStep hs with
  | lock_loop => exact hnone rfl
  | none_loop => exact hnone rfl
  | retry_loop => exact hnone rfl
  | maybeRetry => exact hnone rfl
  | locked hp =>
    rcases hp with rfl | rfl
    · exact hnone rfl
    · exact hnone rfl
  | lost hp =>
    rcases hp with rfl | rfl | rfl
    · exact hnone rfl
    · exact hnone rfl
    · exact hnone rfl
  | call hq hr =>
    rcases hq with rfl | rfl
    · exact keeps_call (fun _ => rfl) hx hr
    · exact keeps_call (fun _ => rfl) hx hr
  | released =>
    refine keeps_of hothers fun g hg => ?_
    cases hgiving.symm.trans hg
    exact .inl (state_released (l.entry x.1) _)
  | @release _ r' _ _ =>
    refine keeps_of hothers fun g hg => ?_
    cases hgiving.symm.trans hg
    refine .inr ⟨⟨x.1, .user x.2, r'⟩, ?_, rfl⟩
    rw [view_setThread]
    simp only [Function.update_self]
    rfl

/-- A thread that is not inside the service gives nothing back. -/
theorem keeps_idle (hx : l.thread x = none) (hothers : ∀ y, y ≠ x → l'.thread y = l.thread y) :
    Keeps (view l) (view l') := by
  refine keeps_of hothers fun g hg => ?_
  simp only [view, hx, Option.bind_none] at hg
  cases hg

theorem keeps_spurious {p : Pc} (hs : l.spurious x p = some l') :
    Keeps (view l) (view l') := by
  intro y g hy
  refine .inr ⟨g, ?_, rfl⟩
  show (l'.thread y).bind (pcGiving y) = some g
  rw [thread_spurious hs]
  exact hy

/-! ### One step -/

theorem live_threadStep (hinv : Inv (view l)) (h : Live l) {p : Pc} (hx : l.thread x = some p)
    (hs : l.threadStep x p = some l') : Live l' where
  lively := lively_move hinv h.lively (move_threadStep hinv hx hs) (keeps_threadStep hx hs)
    (server_threadStep hs)
  clients := clients_threadStep hinv h.clients hx hs
  revoke := revoke_threadStep hinv h.revoke hx hs

theorem live_acquireCall (hinv : Inv (view l)) (h : Live l) (hx : l.thread x = none) :
    Live (l.acquire x) where
  lively := lively_move hinv h.lively (move_acquireCall hx)
    (keeps_idle hx fun _ hy => thread_goOn _ hy) (.inl (server_goOn _))
  clients := clients_acquireCall h.clients hx
  revoke := by
    refine revoke_goOn h.revoke (toRevoke_acquire _ _) fun c p hp => ?_
    rw [hx] at hp
    cases hp

theorem live_releaseCall (hinv : Inv (view l)) (h : Live l) (hx : l.thread x = none)
    (hheld : l.held x = true) : Live (l.release x) where
  lively := lively_move hinv h.lively (move_releaseCall hx hheld)
    (keeps_idle hx fun _ hy => thread_setThread hy) (.inl rfl)
  clients := clients_releaseCall hinv h.clients hx hheld
  revoke := revoke_releaseCall h.revoke hx

theorem server_spurious {p : Pc} (hs : l.spurious x p = some l') : l'.server = l.server := by
  unfold Lock.spurious at hs
  split at hs <;> cases hs <;> rfl

theorem live_spurious (hinv : Inv (view l)) (h : Live l) {p : Pc}
    (hs : l.spurious x p = some l') : Live l' where
  lively := lively_move hinv h.lively (move_spurious hs) (keeps_spurious hs)
    (.inl (server_spurious hs))
  clients := clients_spurious h.clients hs
  revoke := revoke_spurious h.revoke hs

structure SystemLive (s : System) : Prop where
  inv : SystemInv s
  locks : ∀ lid, Live (s.locks lid)

/-- What holds for the lock that was set and held for the others, holds for all. -/
theorem live_set {s : System} (h : ∀ lid, Live (s.locks lid)) {lid : ℕ} (hl : Live l) :
    ∀ lid', Live ((s.set x lid l).locks lid') := by
  intro lid'
  show Live (Function.update s.locks lid l lid')
  by_cases hlid : lid' = lid
  · subst hlid
    rwa [Function.update_self]
  · rw [Function.update_of_ne hlid]
    exact h lid'

/-- **One step** of the service. -/
theorem systemLive_step (s : System) (a : Act) (s' : System) (h : SystemLive s)
    (hs : step s a = some s') : SystemLive s' := by
  refine ⟨systemInv_step s a s' h.inv hs, ?_⟩
  have hinv := h.inv.locks
  cases a with
  | acquire x lid =>
    simp only [step] at hs
    split at hs
    · next hb =>
      cases hs
      exact live_set h.locks (live_acquireCall (hinv lid) (h.locks lid) (h.inv.idle hb lid))
    · cases hs
  | release x lid =>
    simp only [step] at hs
    split at hs
    · next hb =>
      cases hs
      exact live_set h.locks
        (live_releaseCall (hinv lid) (h.locks lid) (h.inv.idle hb.1 lid) hb.2)
    · cases hs
  | step x =>
    obtain ⟨lid, -, hs⟩ := Option.bind_eq_some_iff.mp hs
    obtain ⟨p, hp, hs⟩ := Option.bind_eq_some_iff.mp hs
    obtain ⟨l, hl, rfl⟩ := Option.map_eq_some_iff.mp hs
    exact live_set h.locks (live_threadStep (hinv lid) (h.locks lid) hp hl)
  | spurious x =>
    obtain ⟨lid, -, hs⟩ := Option.bind_eq_some_iff.mp hs
    obtain ⟨p, -, hs⟩ := Option.bind_eq_some_iff.mp hs
    obtain ⟨l, hl, rfl⟩ := Option.map_eq_some_iff.mp hs
    exact live_set h.locks (live_spurious (hinv lid) (h.locks lid) hl)

/-- **Every run.** -/
theorem systemLive_run {acts : List Act} {s : System}
    (hrun : Steps.run step start acts = some s) : SystemLive s :=
  Steps.run_inv_all systemLive_step ⟨SystemInv.start, fun _ => live_new⟩ hrun

/-! ## A lock for which nothing is under way -/

/-- The thread is blocked in `pthread_cond_wait`, and has not been woken. -/
def Asleep (e : LockClient.lockInfo) (t : ℕ) : Pc → Prop
  | .waitFree => e.lockCondVar t = false
  | .waitNone => e.acquireCondVar t = false
  | .waitRetry => e.retryCondVar t = false
  | _ => False

/-- No message is in flight, no handler is in the middle of its work, and nobody has been
woken: all the threads that are inside the service for this lock are asleep. -/
def Quiet (l : Lock) : Prop := ∀ x p, l.thread x = some p → Asleep (l.entry x.1) x.2 p

theorem Quiet.giving (hq : Quiet l) (x : Tid) : (view l).giving x = none := by
  show (l.thread x).bind (pcGiving x) = none
  cases hp : l.thread x with
  | none => rfl
  | some p =>
    have hsleep := hq x p hp
    cases p <;> first | rfl | exact hsleep.elim

/-- Who is at work with the server, waits to be told to retry. -/
theorem Quiet.stage (hq : Quiet l) {x : Tid} (hx : (view l).stage x ≠ none) :
    (view l).stage x = some .told ∧ waits l x.1 x.2 = some .forRetry := by
  obtain ⟨st, hst⟩ := Option.ne_none_iff_exists'.mp hx
  obtain ⟨p, hp, hpc⟩ := Option.bind_eq_some_iff.mp hst
  have hsleep := hq x p hp
  cases p with
  | waitRetry => simp [view, waits, hp, pcStage, pcWait]
  | waitFree => cases hpc
  | waitNone => cases hpc
  | acquire1 a => exact hsleep.elim
  | acquire2 a => exact hsleep.elim
  | release r => exact hsleep.elim

theorem Quiet.not_woken (hq : Quiet l) {c : Str} {t : ℕ} {k : Wait} (ht : waits l c t = some k) :
    (k = .forFree → (l.entry c).lockCondVar t = false)
      ∧ (k = .forNone → (l.entry c).acquireCondVar t = false)
      ∧ (k = .forRetry → (l.entry c).retryCondVar t = false) := by
  obtain ⟨p, hp, hpc⟩ := Option.bind_eq_some_iff.mp ht
  have hsleep := hq (c, t) p hp
  cases p with
  | waitFree =>
    cases hpc
    exact ⟨fun _ => hsleep, nofun, nofun⟩
  | waitNone =>
    cases hpc
    exact ⟨nofun, fun _ => hsleep, nofun⟩
  | waitRetry =>
    cases hpc
    exact ⟨nofun, nofun, fun _ => hsleep⟩
  | acquire1 a => cases hpc
  | acquire2 a => cases hpc
  | release r => cases hpc

theorem Quiet.waits_of_thread (hq : Quiet l) {p : Pc} (hx : l.thread x = some p) :
    ∃ k, waits l x.1 x.2 = some k := by
  have hsleep := hq x p hx
  have hwait : waits l x.1 x.2 = pcWait p := by simp only [waits, hx, Option.bind_some]
  rw [hwait]
  cases p <;> first | exact ⟨_, rfl⟩ | exact hsleep.elim

/-- A client whose lock is taken has a thread that holds it. -/
theorem Live.not_locked (h : Live l) (hheld : ∀ x, l.held x = false) (c : Str) :
    (l.entry c).state ≠ .LOCKED := by
  intro hst
  obtain ⟨x, -, hx⟩ := h.lively.locked c hst
  have hno : l.held x = true := hx
  rw [hheld x] at hno
  cases hno

section Quiet

variable (hinv : Inv (view l)) (h : Live l) (hq : Quiet l)

include h hq

theorem Quiet.not_releasing (c : Str) : (l.entry c).state ≠ .RELEASING := by
  intro hst
  obtain ⟨x, g, hg, -⟩ := h.lively.releasing c hst
  rw [hq.giving x] at hg
  cases hg

/-- The revocation has reached the client. -/
theorem Quiet.toRevoke {c : Str} (hc : GrantedTo l.server c) (hne : waiting l.server ≠ []) :
    (l.entry c).toRevoke = true := by
  rcases h.revoke c hc hne with hr | ⟨x, p, hp, htok⟩
  · exact hr
  · have hsleep := hq x p hp
    cases p <;> first | cases htok | exact hsleep.elim

/-- A client that has the lock gives it up when it is told to. -/
theorem Quiet.not_free_revoked {c : Str} (hst : (l.entry c).state = .FREE) :
    (l.entry c).toRevoke = false := by
  refine Bool.eq_false_of_not_eq_true fun hr => ?_
  obtain ⟨t, ht⟩ := Finset.nonempty_iff_ne_empty.mpr ((h.clients c).revoke hst hr)
  have hwait := ((h.clients c).list t).mp ht
  have hwoken := (h.clients c).wokenFree hst t hwait
  rw [(hq.not_woken hwait).1 rfl] at hwoken
  cases hwoken

/-- Nobody waits for a release to end. -/
theorem Quiet.no_forNone (c : Str) (t : ℕ) : waits l c t ≠ some .forNone := by
  intro ht
  rcases (h.clients c).ending ((h.clients c).acq t ht) with hst | hst
  · exact hq.not_releasing h c hst
  · have hwoken := (h.clients c).wokenNone hst t ht
    rw [(hq.not_woken ht).2.1 rfl] at hwoken
    cases hwoken

variable (hheld : ∀ x, l.held x = false)

include hinv hheld

/-- No client waits at the server: it would have been told to retry, if the lock is free,
and otherwise the client with the lock would have given it back. -/
theorem Quiet.waiting_nil : waiting l.server = [] := by
  by_contra hne
  obtain ⟨c, rest, hcons⟩ := List.exists_cons_of_ne_nil hne
  obtain ⟨e, he⟩ : ∃ e, l.server = some e := by
    cases hs : l.server with
    | none =>
      rw [hs] at hne
      exact absurd rfl hne
    | some e => exact ⟨e, rfl⟩
  cases hst : e.state with
  | FREE =>
    have hnext : LockServer.Next (view l).server c := by
      refine ⟨e, he, hst, ?_⟩
      rw [he] at hcons
      exact congrArg List.head? hcons
    rcases h.lively.retry c hnext with ⟨x, g, hg, -⟩ | htold | ⟨x, -, hx⟩
    · rw [hq.giving x] at hg
      cases hg
    · have hmem : c ∈ waiting (view l).server := by
        show c ∈ waiting l.server
        rw [hcons]
        exact List.mem_cons_self
      obtain ⟨x, rfl, hx⟩ := hinv.retries.queue c hmem
      obtain ⟨-, hwait⟩ := hq.stage (x := x) (by rcases hx with hx | hx <;> rw [hx] <;> nofun)
      have hwoken := ((h.clients x.1).wokenRetry x.2 hwait).2 htold
      rw [(hq.not_woken hwait).2.2 rfl] at hwoken
      cases hwoken
    · obtain ⟨htold, -⟩ := hq.stage (x := x) (by rw [hx]; nofun)
      rw [hx] at htold
      cases htold
  | LOCKED =>
    have hto : GrantedTo l.server e.clientId := ⟨e, he, hst, rfl⟩
    rcases h.lively.granted e.clientId hto with (hfree | hlocked) | ⟨x, -, hx⟩ | ⟨x, g, hg, -⟩
    · have hrevoke := hq.toRevoke h hto hne
      rw [hq.not_free_revoked h hfree] at hrevoke
      cases hrevoke
    · exact h.not_locked hheld _ hlocked
    · obtain ⟨htold, -⟩ := hq.stage (x := x) (by rw [hx]; nofun)
      rw [hx] at htold
      cases htold
    · rw [hq.giving x] at hg
      cases hg

/-- So no thread is at work with the server. -/
theorem Quiet.stage_none (x : Tid) : (view l).stage x = none := by
  by_contra hne
  have hmem := h.lively.told x (hq.stage hne).1
  have hnil : waiting (view l).server = [] := hq.waiting_nil hinv h hheld
  rw [hnil] at hmem
  cases hmem

/-- Nobody waits for the lock to become free: in each state its client can be in, somebody
would be at work, or the waiting thread would have been woken. -/
theorem Quiet.no_forFree (c : Str) (t : ℕ) : waits l c t ≠ some .forFree := by
  intro ht
  cases hst : (l.entry c).state with
  | FREE =>
    have hwoken := (h.clients c).wokenFree hst t ht
    rw [(hq.not_woken ht).1 rfl] at hwoken
    cases hwoken
  | LOCKED => exact h.not_locked hheld c hst
  | ACQUIRING =>
    obtain ⟨x, -, hx⟩ := h.lively.acquiring c hst
    exact hx (hq.stage_none hinv h hheld x)
  | RELEASING => exact hq.not_releasing h c hst
  | NONE =>
    have hne : (l.entry c).waitList ≠ ∅ :=
      Finset.nonempty_iff_ne_empty.mp ⟨t, ((h.clients c).list t).mpr ht⟩
    obtain ⟨t', ht'⟩ := (h.clients c).acqThread ((h.clients c).behind (.inr hst) hne)
    exact hq.no_forNone h c t' ht'

theorem Quiet.no_waiter (x : Tid) : l.thread x = none := by
  cases hx : l.thread x with
  | none => rfl
  | some p =>
    obtain ⟨k, hk⟩ := hq.waits_of_thread hx
    cases k with
    | forFree => exact absurd hk (hq.no_forFree hinv h hheld x.1 x.2)
    | forNone => exact absurd hk (hq.no_forNone h x.1 x.2)
    | forRetry =>
      have htold := stage_of_forRetry hk
      rw [hq.stage_none hinv h hheld] at htold
      cases htold

end Quiet

/-- A signal reaches everybody it is for: at most one thread of a client waits for the end
of a release, and at most one to be told to retry. -/
theorem one_waiter {acts : List Act} {s : System} (hrun : Steps.run step start acts = some s)
    (lid : ℕ) (c : Str) {t t' : ℕ} {k : Wait} (hk : k ≠ .forFree)
    (ht : waits (s.locks lid) c t = some k) (ht' : waits (s.locks lid) c t' = some k) : t = t' := by
  have h := systemLive_run hrun
  cases k with
  | forFree => exact absurd rfl hk
  | forNone => exact ((h.locks lid).clients c).one t t' ht ht'
  | forRetry => exact one_retry (h.inv.locks lid) (stage_of_forRetry ht') t ht

/-- **No waiter is stranded.** In a state the service can reach, with nothing under way for
a lock and nobody holding it, no thread is blocked in `acquire`. -/
theorem no_stranded_waiter {acts : List Act} {s : System}
    (hrun : Steps.run step start acts = some s) {lid : ℕ} (hquiet : Quiet (s.locks lid))
    (hheld : ∀ x, (s.locks lid).held x = false) : ∀ x, (s.locks lid).thread x = none := by
  have h := systemLive_run hrun
  exact hquiet.no_waiter (h.inv.locks lid) (h.locks lid) hheld

/-! ### The lock is handed over and left -/

def Act.tid : Act → Tid
  | .acquire x _ => x
  | .release x _ => x
  | .step x => x
  | .spurious x => x

/-- Who does nothing is not inside the service. -/
theorem busy_step (s : System) (a : Act) (s' : System) (hb : s.busy x = none)
    (hx : Act.tid a ≠ x) (hs : step s a = some s') : s'.busy x = none := by
  have hset : ∀ lid l, ((s.set (Act.tid a) lid l).busy x) = none := by
    intro lid l
    show Function.update s.busy (Act.tid a) _ x = none
    rw [Function.update_of_ne hx.symm]
    exact hb
  cases a with
  | acquire y lid =>
    simp only [step] at hs
    split at hs <;> cases hs
    exact hset _ _
  | release y lid =>
    simp only [step] at hs
    split at hs <;> cases hs
    exact hset _ _
  | step y =>
    obtain ⟨lid, -, hs⟩ := Option.bind_eq_some_iff.mp hs
    obtain ⟨p, -, hs⟩ := Option.bind_eq_some_iff.mp hs
    obtain ⟨l, -, rfl⟩ := Option.map_eq_some_iff.mp hs
    exact hset _ _
  | spurious y =>
    obtain ⟨lid, -, hs⟩ := Option.bind_eq_some_iff.mp hs
    obtain ⟨p, -, hs⟩ := Option.bind_eq_some_iff.mp hs
    obtain ⟨l, -, rfl⟩ := Option.map_eq_some_iff.mp hs
    exact hset _ _

/-- After the hand-over client `b` releases the lock, and keeps it. -/
def handedOver : List Act := handOver ++ [.release (['b'], 0) 7]

theorem no_stranded_waiter_handedOver :
    ∃ s, Steps.run step start handedOver = some s
      ∧ GrantedTo (s.locks 7).server ['b'] ∧ ∀ x, (s.locks 7).thread x = none := by
  have hex : (Steps.run step start handedOver).map (fun s =>
      (((s.locks 7).server.map fun e => (e.state, e.clientId)),
        ((s.locks 7).entry ['b']).state, (s.locks 7).thread (['a'], 0),
        (s.locks 7).thread (['b'], 0)))
      = some (some (.LOCKED, ['b']), .FREE, none, none) := by
    decide
  obtain ⟨s, hs, hdata⟩ := Steps.exists_run hex
  simp only [Prod.mk.injEq, Option.map_eq_some_iff] at hdata
  obtain ⟨⟨e, he, hlocked, hto⟩, hstate, ha, hb⟩ := hdata
  have hgranted : GrantedTo (s.locks 7).server ['b'] := ⟨e, he, hlocked, hto⟩
  have hinv := (systemLive_run hs).inv
  have hquiet : Quiet (s.locks 7) := by
    intro x p hx
    by_cases hxa : x = (['a'], 0)
    · subst hxa
      rw [ha] at hx
      cases hx
    · by_cases hxb : x = (['b'], 0)
      · subst hxb
        rw [hb] at hx
        cases hx
      · have hothers : ∀ act ∈ handedOver, Act.tid act = (['a'], 0) ∨ Act.tid act = (['b'], 0) := by
          decide
        have hidle : s.busy x = none := by
          refine Steps.run_inv_forall (p := fun act => Act.tid act ≠ x) busy_step rfl ?_ hs
          rintro act hact rfl
          exact (hothers act hact).elim hxa hxb
        rw [hinv.idle hidle 7] at hx
        cases hx
  have hheld : ∀ x, (s.locks 7).held x = false := by
    intro x
    refine Bool.eq_false_of_not_eq_true fun hx => ?_
    have hst := ((hinv.locks 7).roles.locked x hx).1
    have hsame : x.1 = ['b'] := ((hinv.locks 7).grants.usable x.1 (.inr hst)).unique hgranted
    rw [hsame] at hst
    cases hstate.symm.trans hst
  exact ⟨s, hs, hgranted, no_stranded_waiter hs hquiet hheld⟩

end Yfs.LockWaiters