/-
The lock protocol without its waiting: what mutual exclusion rests on.

Of a lock only a few things matter for its safety: the entry of the server, the state
and the owner of each client's entry and whether the client was told to retry, how far
each thread is with acquiring the lock from the server, and which threads are in the
middle of giving it back. `View` keeps these and forgets revocations, wait lists and
condition variables. A `Move` is anything that may happen to them.

The delicate part is the second `acquire` of a client: its answer is not looked at,
so it must never be `RETRY`. It is not, because the client was told to retry, and
there is never more than one such message: the free lock with clients waiting has one
retry due, under way, received, or answered by the second `acquire`.
-/
import Yfs.LockSystem
import Yfs.Refs

set_option autoImplicit false

namespace Yfs.LockProtocol

open Text Yfs.LockSystem
open Yfs.LockServer (GrantedTo Served waiting)
open Yfs.LockClient (pthread lockState)
open Refs (update_eq_some)

/-! ## The view of a lock -/

/-- How far a thread is with acquiring the lock from the server. -/
inductive Stage where
  /-- The first `acquire` is under way. -/
  | asked
  /-- It was, or will be, answered with `RETRY`. -/
  | told
  /-- The second `acquire` is under way. -/
  | again
  /-- An `acquire` was, or will be, answered with `OK`. -/
  | granted
  /-- `acquire` will return without the lock. -/
  | lost
  deriving DecidableEq, Repr

/-- A thread that gives the lock back: the client for which it does, its name there, and
the place in the call. -/
structure Giving where
  client : Str
  self : pthread
  place : Release
  deriving DecidableEq, Repr

@[ext] structure View where
  server : Option LockServer.lockInfo
  state : Str → lockState
  owner : Str → pthread
  toRetry : Str → Bool
  stage : Tid → Option Stage
  giving : Tid → Option Giving
  held : Tid → Bool

/-- The thread will tell the client at the front to retry. -/
def Release.due : Release → Bool
  | .front => true
  | .retry _ => true
  | _ => false

/-- What an answer of the server means for a thread. -/
def Stage.served (st : Stage) (after : LockServer.After) : Stage :=
  if after.grants then .granted else if st = .asked then .told else .lost

/-! ## What may happen -/

inductive Move (v : View) : View → Prop
  /-- Nothing that matters. -/
  | stay : Move v v
  /-- A thread goes to the server. -/
  | ask (x : Tid) : v.state x.1 = .NONE → Move v { v with
      state := Function.update v.state x.1 .ACQUIRING
      owner := Function.update v.owner x.1 (.user x.2)
      stage := Function.update v.stage x (some .asked) }
  /-- The server handles an `acquire`. -/
  | serve (x : Tid) (st : Stage) (e : LockServer.lockInfo) (after : LockServer.After) :
      v.stage x = some st → (st = .asked ∨ st = .again) → Served v.server x.1 e after →
      Move v { v with
        server := some e
        stage := Function.update v.stage x (some (st.served after)) }
  /-- A client that was told to retry asks again. -/
  | retry (x : Tid) : v.stage x = some .told → v.toRetry x.1 = true → Move v { v with
      toRetry := Function.update v.toRetry x.1 false
      stage := Function.update v.stage x (some .again) }
  /-- The answer `OK` arrives. -/
  | lock (x : Tid) : v.stage x = some .granted → Move v { v with
      state := Function.update v.state x.1 .LOCKED
      owner := Function.update v.owner x.1 (.user x.2)
      stage := Function.update v.stage x none
      held := Function.update v.held x true }
  /-- A thread takes a lock its client has. -/
  | take (x : Tid) : v.state x.1 = .FREE → Move v { v with
      state := Function.update v.state x.1 .LOCKED
      owner := Function.update v.owner x.1 (.user x.2)
      held := Function.update v.held x true }
  /-- A thread leaves the lock to its client. -/
  | leave (x : Tid) : v.held x = true → Move v { v with
      state := Function.update v.state x.1 .FREE
      owner := Function.update v.owner x.1 (.user x.2)
      held := Function.update v.held x false }
  /-- A thread starts to give the lock back at the end of its `release`. -/
  | release (x : Tid) : v.held x = true → Move v { v with
      state := Function.update v.state x.1 .RELEASING
      owner := Function.update v.owner x.1 (.user x.2)
      held := Function.update v.held x false
      giving := Function.update v.giving x (some ⟨x.1, .user x.2, .sent⟩) }
  /-- A handler starts to give the lock back. -/
  | revoke (x : Tid) (c : Str) : v.state c = .FREE → Move v { v with
      state := Function.update v.state c .RELEASING
      owner := Function.update v.owner c (.handler x.1 x.2)
      giving := Function.update v.giving x (some ⟨c, .handler x.1 x.2, .sent⟩) }
  /-- The server handles a `release`. -/
  | free (x : Tid) (g : Giving) : v.giving x = some g → g.place = .sent → Move v { v with
      server := some (LockServer.release v.server).1
      giving := Function.update v.giving x
        (some { g with place := if (LockServer.release v.server).2 then .front else .replied }) }
  /-- The front of the list is read. -/
  | front (x : Tid) (g : Giving) (dst : Str) : v.giving x = some g → g.place = .front →
      (waiting v.server).head? = some dst → Move v { v with
      giving := Function.update v.giving x (some { g with place := .retry dst }) }
  /-- A client is told to retry. -/
  | tell (x : Tid) (g : Giving) (dst : Str) : v.giving x = some g →
      g.place = .retry dst → Move v { v with
      toRetry := Function.update v.toRetry dst true
      giving := Function.update v.giving x (some { g with place := .replied }) }
  /-- The client learns that the lock was given back. -/
  | done (x : Tid) (g : Giving) : v.giving x = some g → g.place = .replied → Move v { v with
      state := Function.update v.state g.client .NONE
      owner := Function.update v.owner g.client g.self
      giving := Function.update v.giving x none }

theorem Move.to {v w w' : View} (hm : Move v w) (hw : w' = w) : Move v w' := hw ▸ hm

/-! ## The invariant -/

/-- The state of a client tells who is at work for it, and its owner which thread. -/
structure Roles (state : Str → lockState) (owner : Str → pthread) (stage : Tid → Option Stage)
    (held : Tid → Bool) (giving : Tid → Option Giving) : Prop where
  acquiring : ∀ x st, stage x = some st → state x.1 = .ACQUIRING ∧ owner x.1 = .user x.2
  locked : ∀ x, held x = true → state x.1 = .LOCKED ∧ owner x.1 = .user x.2
  releasing : ∀ x g, giving x = some g → state g.client = .RELEASING ∧ owner g.client = g.self
    ∧ (g.self = .handler x.1 x.2 ∨ (g.client = x.1 ∧ g.self = .user x.2))

/-- Who has the lock, has it from the server. -/
structure Grants (server : Option LockServer.lockInfo) (state : Str → lockState)
    (stage : Tid → Option Stage) (giving : Tid → Option Giving) : Prop where
  usable : ∀ c, state c = .FREE ∨ state c = .LOCKED → GrantedTo server c
  granted : ∀ x, stage x = some .granted → GrantedTo server x.1
  unsent : ∀ x g, giving x = some g → g.place = .sent → GrantedTo server g.client

/-- A retry is due in thread `x`. -/
def Due (giving : Tid → Option Giving) (x : Tid) : Prop :=
  ∃ g, giving x = some g ∧ Release.due g.place = true

/-- Who is to get the lock next, and that it is told so once. -/
structure Retries (server : Option LockServer.lockInfo) (toRetry : Str → Bool)
    (stage : Tid → Option Stage) (giving : Tid → Option Giving) : Prop where
  queue : ∀ c ∈ waiting server, ∃ x, x.1 = c ∧ (stage x = some .told ∨ stage x = some .again)
  nodup : (waiting server).Nodup
  again : ∀ x, stage x = some .again → LockServer.Next server x.1
  told : ∀ c, toRetry c = true → LockServer.Next server c ∧ ∀ x, stage x ≠ some .again
  due : ∀ x, Due giving x → (∃ c, LockServer.Next server c)
    ∧ (∀ c, toRetry c = false) ∧ (∀ y, stage y ≠ some .again) ∧ ∀ y, Due giving y → y = x
  dst : ∀ x g dst, giving x = some g → g.place = .retry dst → LockServer.Next server dst
  lost : ∀ x, stage x ≠ some .lost

structure Inv (v : View) : Prop where
  roles : Roles v.state v.owner v.stage v.held v.giving
  grants : Grants v.server v.state v.stage v.giving
  retries : Retries v.server v.toRetry v.stage v.giving

variable {v v' : View}

/-- At most one thread of a client is at work with the server. -/
theorem Inv.stage_unique (h : Inv v) {x y : Tid} {st st' : Stage} (hx : v.stage x = some st)
    (hy : v.stage y = some st') (hc : x.1 = y.1) : x = y := by
  have ho := (h.roles.acquiring x st hx).2
  have ho' := (h.roles.acquiring y st' hy).2
  rw [hc, ho', pthread.user.injEq] at ho
  exact Prod.ext hc ho.symm

/-- At most one thread gives a client's lock back. -/
theorem Inv.giving_unique (h : Inv v) {x y : Tid} {g g' : Giving} (hx : v.giving x = some g)
    (hy : v.giving y = some g') (hc : g.client = g'.client) : x = y := by
  obtain ⟨-, ho, hs⟩ := h.roles.releasing x g hx
  obtain ⟨-, ho', hs'⟩ := h.roles.releasing y g' hy
  rw [hc, ho'] at ho
  rcases hs with hs | ⟨hcx, hs⟩ <;> rcases hs' with hs' | ⟨hcy, hs'⟩
  all_goals rw [hs, hs'] at ho
  · rw [pthread.handler.injEq] at ho
    exact Prod.ext ho.1.symm ho.2.symm
  · cases ho
  · cases ho
  · rw [pthread.user.injEq] at ho
    exact Prod.ext (hcx.symm.trans (hc.trans hcy)) ho.symm

/-- **Mutual exclusion.** -/
theorem Inv.held_unique (h : Inv v) {x y : Tid} (hx : v.held x = true) (hy : v.held y = true) :
    x = y := by
  obtain ⟨hst, ho⟩ := h.roles.locked x hx
  obtain ⟨hst', ho'⟩ := h.roles.locked y hy
  have hc : x.1 = y.1 :=
    (h.grants.usable x.1 (.inr hst)).unique (h.grants.usable y.1 (.inr hst'))
  rw [hc, ho', pthread.user.injEq] at ho
  exact Prod.ext hc ho.symm

/-- A value that the entry that is set did not have. -/
theorem update_keeps {ι β : Type*} [DecidableEq ι] {f : ι → β} {x y : ι} {b : β} (hx : f x ≠ b)
    (hy : f y = b) (o : β) : Function.update f x o y = b := by
  rwa [Function.update_of_ne]
  rintro rfl
  exact hx hy

/-! ## Moves inside a client -/

theorem inv_take (h : Inv v) (x : Tid) (hst : v.state x.1 = .FREE) : Inv { v with
    state := Function.update v.state x.1 .LOCKED
    owner := Function.update v.owner x.1 (.user x.2)
    held := Function.update v.held x true } := by
  obtain ⟨⟨hacq, hheld, hgiv⟩, ⟨husable, hgranted, hunsent⟩, hret⟩ := h
  -- nobody was at work for this client
  refine ⟨⟨?_, ?_, ?_⟩, ⟨?_, hgranted, hunsent⟩, hret⟩
  all_goals grind -linarith [Function.update_apply]

theorem inv_leave (h : Inv v) (x : Tid) (hx : v.held x = true) : Inv { v with
    state := Function.update v.state x.1 .FREE
    owner := Function.update v.owner x.1 (.user x.2)
    held := Function.update v.held x false } := by
  have huniq : ∀ y, v.held y = true → x = y := fun y hy => h.held_unique hx hy
  obtain ⟨⟨hacq, hheld, hgiv⟩, ⟨husable, hgranted, hunsent⟩, hret⟩ := h
  refine ⟨⟨?_, ?_, ?_⟩, ⟨?_, hgranted, hunsent⟩, hret⟩
  all_goals grind -linarith [Function.update_apply]

section Retries

variable {server : Option LockServer.lockInfo} {toRetry : Str → Bool} {stage : Tid → Option Stage}
  {giving : Tid → Option Giving}

variable {x : Tid}

/-- A place that is not due can be reached without harm. -/
theorem Retries.set_giving (h : Retries server toRetry stage giving) {o : Option Giving}
    (ho : ∀ g, o = some g → Release.due g.place = false) :
    Retries server toRetry stage (Function.update giving x o) := by
  have hdue : ∀ y, Due (Function.update giving x o) y → Due giving y := by
    rintro y ⟨g, hg, hd⟩
    rcases update_eq_some hg with ⟨-, hg⟩ | ⟨-, hg⟩
    · rw [ho g hg] at hd
      cases hd
    · exact ⟨g, hg, hd⟩
  refine ⟨h.queue, h.nodup, h.again, h.told, fun y hy => ?_, fun y g dst hy hg => ?_, h.lost⟩
  · obtain ⟨hnext, htold, hagain, huniq⟩ := h.due y (hdue y hy)
    exact ⟨hnext, htold, hagain, fun z hz => huniq z (hdue z hz)⟩
  · rcases update_eq_some hy with ⟨-, hy⟩ | ⟨-, hy⟩
    · have hnot := ho g hy
      rw [hg] at hnot
      cases hnot
    · exact h.dst y g dst hy hg

/-- A thread that neither waits for a retry nor has answered one may change its stage. -/
theorem Retries.set_stage (h : Retries server toRetry stage giving) {o : Option Stage}
    (hold : stage x ≠ some .told ∧ stage x ≠ some .again)
    (hnew : o ≠ some .again ∧ o ≠ some .lost) :
    Retries server toRetry (Function.update stage x o) giving := by
  have hagain : ∀ y, Function.update stage x o y = some .again → stage y = some .again := by
    intro y hy
    rcases update_eq_some hy with ⟨-, hy⟩ | ⟨-, hy⟩
    · exact absurd hy hnew.1
    · exact hy
  refine ⟨fun c hc => ?_, h.nodup, fun y hy => h.again y (hagain y hy), fun c hc => ?_,
    fun y hy => ?_, h.dst, fun y hy => ?_⟩
  · obtain ⟨y, hyc, hy⟩ := h.queue c hc
    have hyx : y ≠ x := by
      rintro rfl
      exact hy.elim hold.1 hold.2
    refine ⟨y, hyc, ?_⟩
    rwa [Function.update_of_ne hyx]
  · obtain ⟨hnext, hno⟩ := h.told c hc
    exact ⟨hnext, fun y hy => hno y (hagain y hy)⟩
  · obtain ⟨hnext, htold, hno, huniq⟩ := h.due y hy
    exact ⟨hnext, htold, fun z hz => hno z (hagain z hz), huniq⟩
  · rcases update_eq_some hy with ⟨-, hy⟩ | ⟨-, hy⟩
    · exact hnew.2 hy
    · exact h.lost y hy

/-- Two threads of one client are not at work with the server at once. -/
def OnePerClient (stage : Tid → Option Stage) : Prop :=
  ∀ x y st st', stage x = some st → stage y = some st' → x.1 = y.1 → x = y

/-- The client that is next asks again: the retry it was told of is used up. -/
theorem Retries.ask_again (h : Retries server toRetry stage giving)
    (hr : toRetry x.1 = true) : Retries server (Function.update toRetry x.1 false)
      (Function.update stage x (some .again)) giving := by
  obtain ⟨hqueue, hnodup, hagain, htold, hdue, hdst, hlost⟩ := h
  obtain ⟨hnext, hno⟩ := htold x.1 hr
  refine ⟨fun c hc => ?_, hnodup, fun y hy => ?_, fun c hc => ?_, fun y hy => ?_, hdst, ?_⟩
  · obtain ⟨y, hyc, hy⟩ := hqueue c hc
    grind -linarith [Function.update_apply]
  · grind -linarith [Function.update_apply]
  · -- only the next client can have been told
    have hcx : c ≠ x.1 := by
      rintro rfl
      rw [Function.update_self] at hc
      cases hc
    rw [Function.update_of_ne hcx] at hc
    exact absurd ((htold c hc).1.unique hnext) hcx
  · obtain ⟨-, hfalse, -⟩ := hdue y hy
    rw [hfalse x.1] at hr
    cases hr
  · grind -linarith [Function.update_apply]

/-- A client that is in the list is not asking for the first time. -/
theorem Retries.not_waiting (h : Retries server toRetry stage giving) (hone : OnePerClient stage)
    (hx : stage x = some .asked) : x.1 ∉ waiting server := by
  intro hmem
  obtain ⟨y, hyc, hy⟩ := h.queue x.1 hmem
  obtain ⟨st, hst⟩ : ∃ st, stage y = some st := by
    rcases hy with hy | hy
    · exact ⟨_, hy⟩
    · exact ⟨_, hy⟩
  rw [hone y x st _ hst hx hyc, hx] at hy
  rcases hy with hy | hy <;> cases hy

variable {e : LockServer.lockInfo}

/-- A lock for which nobody waits is given out: no retry is about. -/
theorem Retries.first (h : Retries server toRetry stage giving) (hnil : waiting server = [])
    (hnil' : waiting (some e) = []) :
    Retries (some e) toRetry (Function.update stage x (some .granted)) giving := by
  -- nobody waits, so nobody is next and no retry can be about
  have hnext : ∀ c, ¬LockServer.Next server c := fun c hc => by
    have hmem := hc.mem
    rw [hnil] at hmem
    cases hmem
  obtain ⟨-, -, hagain, htold, hdue, hdst, hlost⟩ := h
  refine ⟨fun c hc => ?_, ?_, fun y hy => ?_, fun c hc => absurd (htold c hc).1 (hnext c),
    fun y hy => ?_, fun y g dst hy hg => absurd (hdst y g dst hy hg) (hnext dst), ?_⟩
  · rw [hnil'] at hc
    cases hc
  · rw [hnil']
    exact List.nodup_nil
  · have hold : stage y = some .again := by grind -linarith [Function.update_apply]
    exact absurd (hagain y hold) (hnext y.1)
  · obtain ⟨⟨c, hc⟩, -⟩ := hdue y hy
    exact absurd hc (hnext c)
  · grind -linarith [Function.update_apply]

/-- The lock is given to the client that is next: its second `acquire` was the only
retry about. -/
theorem Retries.next (h : Retries server toRetry stage giving) (hone : OnePerClient stage)
    (hx : stage x = some .again)
    (hcons : waiting server = x.1 :: waiting (some e)) :
    Retries (some e) toRetry (Function.update stage x (some .granted)) giving := by
  obtain ⟨hqueue, hnodup, hagain, htold, hdue, hdst, hlost⟩ := h
  rw [hcons, List.nodup_cons] at hnodup
  have hnext := hagain x hx
  refine ⟨fun c hc => ?_, hnodup.2, fun y hy => ?_, fun c hc => absurd hx ((htold c hc).2 x),
    fun y hy => absurd hx ((hdue y hy).2.2.1 x), fun y g dst hy hg => ?_, ?_⟩
  · obtain ⟨y, hyc, hy⟩ := hqueue c (hcons ▸ List.mem_cons_of_mem _ hc)
    have hyx : y ≠ x := by
      rintro rfl
      exact hnodup.1 (hyc ▸ hc)
    refine ⟨y, hyc, ?_⟩
    rwa [Function.update_of_ne hyx]
  · rcases update_eq_some hy with ⟨-, hy⟩ | ⟨hyx, hy⟩
    · cases hy
    · exact absurd (hone y x _ _ hy hx ((hagain y hy).unique hnext)) hyx
  · have hd : Due giving y := ⟨g, hy, by rw [hg]; rfl⟩
    exact absurd hx ((hdue y hd).2.2.1 x)
  · grind -linarith [Function.update_apply]

/-- A client is put at the end of the list. -/
theorem Retries.push (h : Retries server toRetry stage giving) (hone : OnePerClient stage)
    (hx : stage x = some .asked)
    (hpush : waiting (some e) = waiting server ++ [x.1])
    (hkeep : ∀ c, LockServer.Next server c → LockServer.Next (some e) c) :
    Retries (some e) toRetry (Function.update stage x (some .told)) giving := by
  have hnot := h.not_waiting hone hx
  obtain ⟨hqueue, hnodup, hagain, htold, hdue, hdst, hlost⟩ := h
  have hold : ∀ y, Function.update stage x (some Stage.told) y = some .again →
      stage y = some .again := by grind -linarith [Function.update_apply]
  refine ⟨fun c hc => ?_, ?_, fun y hy => hkeep _ (hagain y (hold y hy)), fun c hc => ?_,
    fun y hy => ?_, fun y g dst hy hg => hkeep _ (hdst y g dst hy hg), ?_⟩
  · rw [hpush] at hc
    rcases List.mem_append.mp hc with hc | hc
    · obtain ⟨y, hyc, hy⟩ := hqueue c hc
      grind -linarith [Function.update_apply]
    · exact ⟨x, (List.mem_singleton.mp hc).symm, .inl (Function.update_self ..)⟩
  · rw [hpush]
    exact List.nodup_append'.mpr ⟨hnodup, List.nodup_singleton _,
      List.disjoint_singleton.mpr hnot⟩
  · obtain ⟨hnext, hno⟩ := htold c hc
    exact ⟨hkeep c hnext, fun y hy => hno y (hold y hy)⟩
  · obtain ⟨⟨c, hnext⟩, hfalse, hno, huniq⟩ := hdue y hy
    exact ⟨⟨c, hkeep c hnext⟩, hfalse, fun z hz => hno z (hold z hz), huniq⟩
  · grind -linarith [Function.update_apply]

/-- The lock comes back: if a client waits, this thread is the one that owes it a retry. -/
theorem Retries.free (h : Retries server toRetry stage giving) {holder : Str}
    (hgranted : GrantedTo server holder) {g : Giving} :
    Retries (some (LockServer.release server).1) toRetry stage
      (Function.update giving x
        (some { g with place := if (LockServer.release server).2 then .front else .replied })) := by
  -- the lock was granted until now, so nobody was next
  have hnext : ∀ c, ¬LockServer.Next server c := fun c hc => hc.not_granted hgranted
  obtain ⟨-, hsame, hfront⟩ := LockServer.release_spec server
  obtain ⟨hqueue, hnodup, hagain, htold, hdue, hdst, hlost⟩ := h
  have hmine : ∀ y, Due (Function.update giving x (some { g with
      place := if (LockServer.release server).2 then .front else .replied })) y → y = x := by
    rintro y ⟨g', hy, hd⟩
    rcases update_eq_some hy with ⟨rfl, -⟩ | ⟨-, hy⟩
    · rfl
    · obtain ⟨⟨c, hc⟩, -⟩ := hdue y ⟨g', hy, hd⟩
      exact absurd hc (hnext c)
  refine ⟨fun c hc => hqueue c (hsame ▸ hc), hsame ▸ hnodup,
    fun y hy => absurd (hagain y hy) (hnext y.1), fun c hc => absurd (htold c hc).1 (hnext c),
    fun y hy => ?_, fun y g' dst hy hg' => ?_, hlost⟩
  · obtain rfl := hmine y hy
    obtain ⟨g', hg', hd⟩ := hy
    rw [Function.update_self, Option.some.injEq] at hg'
    refine ⟨hfront.mp ?_, fun c => ?_, fun z hz => hnext z.1 (hagain z hz), hmine⟩
    · rw [← hg'] at hd
      by_contra hf
      rw [if_neg hf] at hd
      cases hd
    · by_contra hc
      exact hnext c (htold c (Bool.eq_true_of_not_eq_false hc)).1
  · rcases update_eq_some hy with ⟨-, ⟨⟩⟩ | ⟨-, hy⟩
    · simp only at hg'
      split at hg' <;> cases hg'
    · exact absurd (hdst y g' dst hy hg') (hnext dst)

/-- The front of the list is read; the retry may be left to another call. -/
theorem Retries.read_front (h : Retries server toRetry stage giving) {x y : Tid}
    (hx : Due giving x) {dst : Str} (hhead : (waiting server).head? = some dst)
    {o : Option Giving} (ho : ∀ g, o = some g → Release.due g.place = false) (c : Str)
    (self : pthread) : Retries server toRetry stage
      (Function.update (Function.update giving x o) y (some ⟨c, self, .retry dst⟩)) := by
  obtain ⟨⟨c', e, he, hfree, -⟩, hfalse, hno, huniq⟩ := h.due x hx
  have hnext : LockServer.Next server dst := by
    rw [waiting, he] at hhead
    exact ⟨e, he, hfree, hhead⟩
  -- the retry of `x` was the only one due
  have hmine : ∀ z, Due (Function.update (Function.update giving x o) y
      (some ⟨c, self, .retry dst⟩)) z → z = y := by
    rintro z ⟨g, hg, hd⟩
    rcases update_eq_some hg with ⟨rfl, -⟩ | ⟨hzy, hg⟩
    · rfl
    · rcases update_eq_some hg with ⟨-, ho'⟩ | ⟨hzx, hg'⟩
      · rw [ho g ho'] at hd
        cases hd
      · exact absurd (huniq z ⟨g, hg', hd⟩) hzx
  refine ⟨h.queue, h.nodup, h.again, h.told, fun z hz => ?_, fun z g dst' hz hg => ?_, h.lost⟩
  · obtain rfl := hmine z hz
    exact ⟨⟨dst, hnext⟩, hfalse, hno, hmine⟩
  · have hzy := hmine z ⟨g, hz, by rw [hg]; rfl⟩
    subst hzy
    rw [Function.update_self, Option.some.injEq] at hz
    subst hz
    cases hg
    exact hnext

/-- A client is told to retry. -/
theorem Retries.tell (h : Retries server toRetry stage giving) {g : Giving}
    (hx : giving x = some g) {dst : Str} (hg : g.place = .retry dst) {o : Option Giving}
    (ho : ∀ g, o = some g → Release.due g.place = false) :
    Retries server (Function.update toRetry dst true) stage (Function.update giving x o) := by
  obtain ⟨-, -, hno, huniq⟩ := h.due x ⟨g, hx, by rw [hg]; rfl⟩
  -- the retry of this thread was the only one due
  have hnone : ∀ y g', Function.update giving x o y = some g' → Release.due g'.place = false := by
    intro y g' hy
    rcases update_eq_some hy with ⟨-, hy⟩ | ⟨hyx, hy⟩
    · exact ho g' hy
    · by_contra hd
      exact hyx (huniq y ⟨g', hy, Bool.eq_true_of_not_eq_false hd⟩)
  refine ⟨h.queue, h.nodup, h.again, fun c hc => ?_, fun y hy => ?_, fun y g' dst' hy hg' => ?_,
    h.lost⟩
  · by_cases hcd : c = dst
    · rw [hcd]
      exact ⟨h.dst x g dst hx hg, hno⟩
    · rw [Function.update_of_ne hcd] at hc
      exact h.told c hc
  · obtain ⟨g', hg', hd⟩ := hy
    rw [hnone y g' hg'] at hd
    cases hd
  · have hd := hnone y g' hy
    rw [hg'] at hd
    cases hd

/-- Nobody has the lock that the server gives out. -/
theorem Grants.of_free {state : Str → lockState} (h : Grants server state stage giving)
    (hfree : ∀ c, ¬GrantedTo server c) (he : GrantedTo (some e) x.1) :
    Grants (some e) state (Function.update stage x (some .granted)) giving := by
  refine ⟨fun c hc => absurd (h.usable c hc) (hfree c), fun y hy => ?_,
    fun y g hy hg => absurd (h.unsent y g hy hg) (hfree g.client)⟩
  rcases update_eq_some hy with ⟨rfl, -⟩ | ⟨-, hy⟩
  · exact he
  · exact absurd (h.granted y hy) (hfree y.1)

/-- **The server handles an `acquire`**; a second one is always granted. -/
theorem serve_keeps {state : Str → lockState} (hgrants : Grants server state stage giving)
    (hretries : Retries server toRetry stage giving) (hone : OnePerClient stage)
    {st : Stage} {after : LockServer.After} (hx : stage x = some st)
    (hst : st = .asked ∨ st = .again) (hserved : Served server x.1 e after) :
    Grants (some e) state (Function.update stage x (some (st.served after))) giving
      ∧ Retries (some e) toRetry (Function.update stage x (some (st.served after))) giving := by
  cases hserved with
  | first hgr hto hfree hnil hnil' =>
    have hgranted : st.served after = .granted := if_pos hgr
    rw [hgranted]
    exact ⟨hgrants.of_free hfree hto, hretries.first hnil hnil'⟩
  | next hgr hto hnext hcons =>
    have hgranted : st.served after = .granted := if_pos hgr
    rw [hgranted]
    have hagain : st = .again := by
      rcases hst with rfl | rfl
      · exact absurd hnext.mem (hretries.not_waiting hone hx)
      · rfl
    exact ⟨hgrants.of_free (fun c => hnext.not_granted) hto,
      hretries.next hone (hagain ▸ hx) hcons⟩
  | queued hgr hno hpush hkeep hkeep' =>
    -- who asks again is next, and who is next is not put at the end
    have hasked : st = .asked := by
      rcases hst with rfl | rfl
      · rfl
      · exact absurd (hretries.again x hx) hno
    have htold : st.served after = .told := by simp [Stage.served, hgr, hasked]
    rw [htold]
    refine ⟨⟨?_, ?_, ?_⟩, hretries.push hone (hasked ▸ hx) hpush hkeep'⟩
    · exact fun c hc => hkeep c (hgrants.usable c hc)
    · intro y hy
      have hold : stage y = some .granted := by grind -linarith [Function.update_apply]
      exact hkeep y.1 (hgrants.granted y hold)
    · exact fun y g hy hg => hkeep g.client (hgrants.unsent y g hy hg)

end Retries

theorem inv_ask (h : Inv v) (x : Tid) (hst : v.state x.1 = .NONE) : Inv { v with
    state := Function.update v.state x.1 .ACQUIRING
    owner := Function.update v.owner x.1 (.user x.2)
    stage := Function.update v.stage x (some .asked) } := by
  -- a client in state `NONE` has no thread at work with the server
  have hnone : v.stage x = none := by
    cases hx : v.stage x with
    | none => rfl
    | some st =>
      rw [(h.roles.acquiring x st hx).1] at hst
      cases hst
  have hret := h.retries.set_stage (x := x) (o := some .asked) (by simp [hnone]) (by simp)
  obtain ⟨⟨hacq, hheld, hgiv⟩, ⟨husable, hgranted, hunsent⟩, -⟩ := h
  refine ⟨⟨?_, ?_, ?_⟩, ⟨?_, ?_, hunsent⟩, hret⟩
  all_goals grind -linarith [Function.update_apply]

theorem inv_lock (h : Inv v) (x : Tid) (hx : v.stage x = some .granted) : Inv { v with
    state := Function.update v.state x.1 .LOCKED
    owner := Function.update v.owner x.1 (.user x.2)
    stage := Function.update v.stage x none
    held := Function.update v.held x true } := by
  -- the client's other threads do not notice
  have huniq : ∀ y st, v.stage y = some st → x.1 = y.1 → x = y :=
    fun y st hy => h.stage_unique hx hy
  have hret := h.retries.set_stage (x := x) (o := none) (by simp [hx]) (by simp)
  obtain ⟨⟨hacq, hheld, hgiv⟩, ⟨husable, hgranted, hunsent⟩, -⟩ := h
  refine ⟨⟨?_, ?_, ?_⟩, ⟨?_, ?_, hunsent⟩, hret⟩
  all_goals grind -linarith [Function.update_apply]

theorem inv_release (h : Inv v) (x : Tid) (hx : v.held x = true) : Inv { v with
    state := Function.update v.state x.1 .RELEASING
    owner := Function.update v.owner x.1 (.user x.2)
    held := Function.update v.held x false
    giving := Function.update v.giving x (some ⟨x.1, .user x.2, .sent⟩) } := by
  have huniq : ∀ y, v.held y = true → x = y := fun y hy => h.held_unique hx hy
  have hret := h.retries.set_giving (x := x) (o := some ⟨x.1, .user x.2, .sent⟩)
    (by rintro _ ⟨rfl⟩; rfl)
  obtain ⟨⟨hacq, hheld, hgiv⟩, ⟨husable, hgranted, hunsent⟩, -⟩ := h
  refine ⟨⟨?_, ?_, ?_⟩, ⟨?_, hgranted, ?_⟩, hret⟩
  all_goals grind -linarith [Function.update_apply]

theorem inv_revoke (h : Inv v) (x : Tid) (c : Str) (hst : v.state c = .FREE) : Inv { v with
    state := Function.update v.state c .RELEASING
    owner := Function.update v.owner c (.handler x.1 x.2)
    giving := Function.update v.giving x (some ⟨c, .handler x.1 x.2, .sent⟩) } := by
  have hret := h.retries.set_giving (x := x) (o := some ⟨c, .handler x.1 x.2, .sent⟩)
    (by rintro _ ⟨rfl⟩; rfl)
  obtain ⟨⟨hacq, hheld, hgiv⟩, ⟨husable, hgranted, hunsent⟩, -⟩ := h
  refine ⟨⟨?_, ?_, ?_⟩, ⟨?_, hgranted, ?_⟩, hret⟩
  all_goals grind -linarith [Function.update_apply]

theorem inv_done (h : Inv v) (x : Tid) (g : Giving) (hx : v.giving x = some g) : Inv { v with
    state := Function.update v.state g.client .NONE
    owner := Function.update v.owner g.client g.self
    giving := Function.update v.giving x none } := by
  have huniq : ∀ y g', v.giving y = some g' → g.client = g'.client → x = y :=
    fun y g' hy => h.giving_unique hx hy
  have hret := h.retries.set_giving (x := x) (o := none) nofun
  obtain ⟨⟨hacq, hheld, hgiv⟩, ⟨husable, hgranted, hunsent⟩, -⟩ := h
  refine ⟨⟨?_, ?_, ?_⟩, ⟨?_, hgranted, ?_⟩, hret⟩
  all_goals grind -linarith [Function.update_apply]

/-! ## Moves that pass the lock on -/

theorem Inv.onePerClient (h : Inv v) : OnePerClient v.stage :=
  fun _ _ _ _ hx hy hc => h.stage_unique hx hy hc

theorem Inv.roles_stage (h : Inv v) {x : Tid} {st st' : Stage} (hx : v.stage x = some st) :
    Roles v.state v.owner (Function.update v.stage x (some st')) v.held v.giving := by
  refine ⟨fun y sy hy => ?_, h.roles.locked, h.roles.releasing⟩
  rcases update_eq_some hy with ⟨rfl, -⟩ | ⟨-, hy⟩
  · exact h.roles.acquiring y st hx
  · exact h.roles.acquiring y sy hy

theorem inv_retry (h : Inv v) (x : Tid) (hx : v.stage x = some .told)
    (hr : v.toRetry x.1 = true) : Inv { v with
    toRetry := Function.update v.toRetry x.1 false
    stage := Function.update v.stage x (some .again) } := by
  refine ⟨h.roles_stage hx, ⟨h.grants.usable, ?_, h.grants.unsent⟩, h.retries.ask_again hr⟩
  have hgranted := h.grants.granted
  grind -linarith [Function.update_apply]

theorem inv_serve (h : Inv v) (x : Tid) (st : Stage) (e : LockServer.lockInfo)
    (after : LockServer.After) (hx : v.stage x = some st) (hst : st = .asked ∨ st = .again)
    (hserved : Served v.server x.1 e after) : Inv { v with
    server := some e
    stage := Function.update v.stage x (some (st.served after)) } := by
  obtain ⟨hgrants, hretries⟩ := serve_keeps h.grants h.retries h.onePerClient hx hst hserved
  exact ⟨h.roles_stage hx, hgrants, hretries⟩

theorem Inv.roles_giving (h : Inv v) {x : Tid} {g : Giving} (hx : v.giving x = some g)
    (p : Release) : Roles v.state v.owner v.stage v.held
      (Function.update v.giving x (some { g with place := p })) := by
  refine ⟨h.roles.acquiring, h.roles.locked, fun y g' hy => ?_⟩
  rcases update_eq_some hy with ⟨rfl, ⟨⟩⟩ | ⟨-, hy⟩
  · exact h.roles.releasing y g hx
  · exact h.roles.releasing y g' hy

/-- Giving back goes on at a place after the call. -/
theorem Inv.unsent_giving (h : Inv v) {x : Tid} {g : Giving} {p : Release} (hp : p ≠ .sent) :
    ∀ y g', Function.update v.giving x (some { g with place := p }) y = some g' →
      g'.place = .sent → GrantedTo v.server g'.client := by
  intro y g' hy hg'
  rcases update_eq_some hy with ⟨-, ⟨⟩⟩ | ⟨-, hy⟩
  · exact absurd hg' hp
  · exact h.grants.unsent y g' hy hg'

/-- Only the one who gives the lock back had it. -/
theorem Inv.grants_freed (h : Inv v) {x : Tid} {g : Giving} (hx : v.giving x = some g)
    (hg : g.place = .sent) {e : LockServer.lockInfo} {p : Release} (hp : p ≠ .sent) :
    Grants (some e) v.state v.stage (Function.update v.giving x (some { g with place := p })) := by
  have hto := h.grants.unsent x g hx hg
  have hrel := (h.roles.releasing x g hx).1
  refine ⟨fun c hc => ?_, fun y hy => ?_, fun y g' hy hg' => ?_⟩
  -- a client that can use the lock would be the one that gives it back
  · rw [(h.grants.usable c hc).unique hto, hrel] at hc
    rcases hc with hc | hc <;> cases hc
  · have hacq := (h.roles.acquiring y _ hy).1
    rw [(h.grants.granted y hy).unique hto, hrel] at hacq
    cases hacq
  · rcases update_eq_some hy with ⟨-, ⟨⟩⟩ | ⟨hyx, hy⟩
    · exact absurd hg' hp
    · have hc := (h.grants.unsent y g' hy hg').unique hto
      exact absurd (h.giving_unique hy hx hc) hyx

/-- **The server handles a `release`.** -/
theorem inv_free (h : Inv v) (x : Tid) (g : Giving) (hx : v.giving x = some g)
    (hg : g.place = .sent) : Inv { v with
    server := some (LockServer.release v.server).1
    giving := Function.update v.giving x
      (some { g with place := if (LockServer.release v.server).2 then .front
        else .replied }) } := by
  refine ⟨h.roles_giving hx _, h.grants_freed hx hg ?_, h.retries.free (h.grants.unsent x g hx hg)⟩
  split <;> nofun

theorem inv_front (h : Inv v) (x : Tid) (g : Giving) (dst : Str) (hx : v.giving x = some g)
    (hg : g.place = .front) (hhead : (waiting v.server).head? = some dst) : Inv { v with
    giving := Function.update v.giving x (some { g with place := .retry dst }) } := by
  have hdue : Due v.giving x := ⟨g, hx, by rw [hg]; rfl⟩
  have hret := h.retries.read_front hdue hhead (y := x) (o := none) nofun g.client g.self
  rw [Function.update_idem] at hret
  exact ⟨h.roles_giving hx _, ⟨h.grants.usable, h.grants.granted, h.unsent_giving nofun⟩, hret⟩

theorem inv_tell (h : Inv v) (x : Tid) (g : Giving) (dst : Str) (hx : v.giving x = some g)
    (hg : g.place = .retry dst) : Inv { v with
    toRetry := Function.update v.toRetry dst true
    giving := Function.update v.giving x (some { g with place := .replied }) } := by
  refine ⟨h.roles_giving hx _, ⟨h.grants.usable, h.grants.granted, h.unsent_giving nofun⟩,
    h.retries.tell hx hg ?_⟩
  rintro _ ⟨rfl⟩
  rfl

/-- **Every move keeps the invariant.** -/
theorem inv_move (h : Inv v) (hm : Move v v') : Inv v' := by
  cases hm with
  | stay => exact h
  | ask x hst => exact inv_ask h x hst
  | serve x st e after hx hst hserved => exact inv_serve h x st e after hx hst hserved
  | retry x hx hr => exact inv_retry h x hx hr
  | lock x hx => exact inv_lock h x hx
  | take x hst => exact inv_take h x hst
  | leave x hx => exact inv_leave h x hx
  | release x hx => exact inv_release h x hx
  | revoke x c hst => exact inv_revoke h x c hst
  | free x g hx hg => exact inv_free h x g hx hg
  | front x g dst hx hg hhead => exact inv_front h x g dst hx hg hhead
  | tell x g dst hx hg => exact inv_tell h x g dst hx hg
  | done x g hx hg => exact inv_done h x g hx

end Yfs.LockProtocol
