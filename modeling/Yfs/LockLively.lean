/-
Somebody is at work for every lock that is on its way.

`Lively` is the converse of the invariant of the protocol: every state of a client that
does not last has a thread at work for it, a lock that was granted is in some hands, and
a free lock for which clients wait has its retry. It needs two facts about a step that a
`Move` does not give: a thread that gives a lock back goes on with it, and the server
handles one request at a time.
-/
import Yfs.LockProtocol

set_option autoImplicit false

namespace Yfs.LockLively

open Text Yfs.LockSystem Yfs.LockProtocol
open Yfs.LockServer (GrantedTo waiting)
open Yfs.LockClient (lockState)
open Refs (update_eq_some)

/-! ## Somebody is at work -/

structure Lively (v : View) : Prop where
  acquiring : ∀ c, v.state c = .ACQUIRING → ∃ x, x.1 = c ∧ v.stage x ≠ none
  locked : ∀ c, v.state c = .LOCKED → ∃ x, x.1 = c ∧ v.held x = true
  releasing : ∀ c, v.state c = .RELEASING → ∃ x g, v.giving x = some g ∧ g.client = c
  /-- The client to which the lock is granted has it, or will be told, or gives it back. -/
  granted : ∀ c, GrantedTo v.server c →
    (v.state c = .FREE ∨ v.state c = .LOCKED) ∨ (∃ x, x.1 = c ∧ v.stage x = some .granted)
      ∨ ∃ x g, v.giving x = some g ∧ g.client = c ∧ g.place = .sent
  /-- The client that is next has been told to retry, or asks again, or the retry is due. -/
  retry : ∀ c, LockServer.Next v.server c →
    (∃ x, Due v.giving x) ∨ v.toRetry c = true ∨ ∃ x, x.1 = c ∧ v.stage x = some .again
  told : ∀ x, v.stage x = some .told → x.1 ∈ waiting v.server

variable {v v' : View}

/-- A thread of another client is not the one that was set. -/
theorem update_other {β : Type} {f : Tid → β} {x y : Tid} {b : β} (h : y.1 ≠ x.1) :
    Function.update f x b y = f y := by
  refine Function.update_of_ne ?_ _ _
  rintro rfl
  exact h rfl

/-- A client that is in another state than the one that was set. -/
theorem of_update {state : Str → lockState} {c c' : Str} {s s' : lockState}
    (h : Function.update state c s c' = s') (hne : s ≠ s') : c' ≠ c ∧ state c' = s' := by
  by_cases hc : c' = c
  · subst hc
    rw [Function.update_self] at h
    exact absurd h hne
  · rw [Function.update_of_ne hc] at h
    exact ⟨hc, h⟩

theorem of_update_ne {state : Str → lockState} {c c' : Str} {s s' : lockState}
    (h : Function.update state c s c' = s') (hc : c' ≠ c) : state c' = s' := by
  rwa [Function.update_of_ne hc] at h

theorem acquiring_move (h : Lively v) (hm : Move v v') :
    ∀ c, v'.state c = .ACQUIRING → ∃ x, x.1 = c ∧ v'.stage x ≠ none := by
  intro c hc
  -- the first case is a stage that is set, the others are states
  have hset : ∀ x st, v.state c = .ACQUIRING →
      ∃ y, y.1 = c ∧ Function.update v.stage x (some st) y ≠ none := by
    intro x st hc
    obtain ⟨y, hy, hs⟩ := h.acquiring c hc
    refine ⟨y, hy, ?_⟩
    by_cases hyx : y = x
    · rw [hyx, Function.update_self]
      nofun
    · rwa [Function.update_of_ne hyx]
  cases hm with
  | stay => exact h.acquiring c hc
  | ask x hst =>
    by_cases hcx : c = x.1
    · refine ⟨x, hcx.symm, ?_⟩
      simp
    · exact hset x _ (of_update_ne hc hcx)
  | serve x st e after hx hst hserved => exact hset x _ hc
  | retry x hx hr => exact hset x _ hc
  | lock x hx =>
    obtain ⟨hne, hc⟩ := of_update hc nofun
    obtain ⟨y, rfl, hs⟩ := h.acquiring c hc
    refine ⟨y, rfl, ?_⟩
    show Function.update v.stage x none y ≠ none
    rwa [update_other hne]
  | take x hst => exact h.acquiring c (of_update hc nofun).2
  | leave x hx => exact h.acquiring c (of_update hc nofun).2
  | release x hx => exact h.acquiring c (of_update hc nofun).2
  | revoke x c' hst => exact h.acquiring c (of_update hc nofun).2
  | free x g hx hg => exact h.acquiring c hc
  | front x g dst hx hg hhead => exact h.acquiring c hc
  | tell x g dst hx hg => exact h.acquiring c hc
  | done x g hx hg => exact h.acquiring c (of_update hc nofun).2

theorem locked_move (h : Lively v) (hm : Move v v') :
    ∀ c, v'.state c = .LOCKED → ∃ x, x.1 = c ∧ v'.held x = true := by
  intro c hc
  have hset : ∀ x s b, s ≠ .LOCKED ∨ b = true → Function.update v.state x.1 s c = .LOCKED →
      ∃ y, y.1 = c ∧ Function.update v.held x b y = true := by
    intro x s b hsb hc
    by_cases hcx : c = x.1
    · subst hcx
      rw [Function.update_self] at hc
      exact ⟨x, rfl, by rw [Function.update_self]; exact hsb.resolve_left fun hne => hne hc⟩
    · rw [Function.update_of_ne hcx] at hc
      obtain ⟨y, rfl, hy⟩ := h.locked c hc
      exact ⟨y, rfl, by rwa [update_other hcx]⟩
  cases hm with
  | stay => exact h.locked c hc
  | ask x hst => exact h.locked c (of_update hc nofun).2
  | serve x st e after hx hst hserved => exact h.locked c hc
  | retry x hx hr => exact h.locked c hc
  | lock x hx => exact hset x _ true (.inr rfl) hc
  | take x hst => exact hset x _ true (.inr rfl) hc
  | leave x hx => exact hset x .FREE false (.inl nofun) hc
  | release x hx => exact hset x .RELEASING false (.inl nofun) hc
  | revoke x c' hst => exact h.locked c (of_update hc nofun).2
  | free x g hx hg => exact h.locked c hc
  | front x g dst hx hg hhead => exact h.locked c hc
  | tell x g dst hx hg => exact h.locked c hc
  | done x g hx hg => exact h.locked c (of_update hc nofun).2

/-- A thread that gives a lock back goes on with it, until its client is told. -/
def Keeps (v v' : View) : Prop :=
  ∀ y g, v.giving y = some g →
    v'.state g.client = .NONE ∨ ∃ g', v'.giving y = some g' ∧ g'.client = g.client

theorem releasing_move (h : Lively v) (hm : Move v v') (hkeep : Keeps v v') :
    ∀ c, v'.state c = .RELEASING → ∃ x g, v'.giving x = some g ∧ g.client = c := by
  intro c hc
  have hold : v.state c = .RELEASING → ∃ x g, v'.giving x = some g ∧ g.client = c := by
    intro hold
    obtain ⟨x, g, hg, rfl⟩ := h.releasing c hold
    rcases hkeep x g hg with hnone | ⟨g', hg', hsame⟩
    · rw [hnone] at hc
      cases hc
    · exact ⟨x, g', hg', hsame⟩
  cases hm with
  | stay => exact hold hc
  | ask x hst => exact hold (of_update hc nofun).2
  | serve x st e after hx hst hserved => exact hold hc
  | retry x hx hr => exact hold hc
  | lock x hx => exact hold (of_update hc nofun).2
  | take x hst => exact hold (of_update hc nofun).2
  | leave x hx => exact hold (of_update hc nofun).2
  | release x hx =>
    by_cases hcx : c = x.1
    · exact ⟨x, _, Function.update_self .., hcx.symm⟩
    · exact hold (of_update_ne hc hcx)
  | revoke x c' hst =>
    by_cases hcx : c = c'
    · exact ⟨x, _, Function.update_self .., hcx.symm⟩
    · exact hold (of_update_ne hc hcx)
  | free x g hx hg => exact hold hc
  | front x g dst hx hg hhead => exact hold hc
  | tell x g dst hx hg => exact hold hc
  | done x g hx hg => exact hold (of_update hc nofun).2

/-- The server handles one request, or none. -/
def ServerStep (entry entry' : Option LockServer.lockInfo) : Prop :=
  entry' = entry ∨ (∃ id, entry' = some (LockServer.acquire entry id).1)
    ∨ entry' = some (LockServer.release entry).1

/-- A request that is put at the end of the list changes nothing else, and the lock is
not free for the asking. -/
theorem queued_same {entry : Option LockServer.lockInfo} {e : LockServer.lockInfo} {id : Str}
    (hpush : waiting (some e) = waiting entry ++ [id]) (hserver : ServerStep entry (some e)) :
    ∃ l, entry = some l ∧ e.state = l.state ∧ e.clientId = l.clientId
      ∧ (l.state = .FREE → l.waitList ≠ []) := by
  have hlen := congrArg List.length hpush
  rw [List.length_append, List.length_singleton] at hlen
  rcases hserver with hsame | ⟨id', hacq⟩ | hrel
  · rw [hsame] at hlen
    omega
  · rw [Option.some.injEq] at hacq
    rcases LockServer.acquire_cases entry id' with ⟨-, -, htail, -⟩ | ⟨l, rfl, heq, hfree, -⟩
    · have hshort : (waiting (some e)).length = (waiting entry).length - 1 := by
        rw [← List.length_tail, ← htail, hacq]
        rfl
      omega
    · rw [heq] at hacq
      subst hacq
      exact ⟨l, rfl, rfl, rfl, hfree⟩
  · rw [hrel, (LockServer.release_spec entry).2.1] at hlen
    omega

theorem granted_of_queued {entry : Option LockServer.lockInfo} {e : LockServer.lockInfo}
    {id c : Str} (hpush : waiting (some e) = waiting entry ++ [id])
    (hserver : ServerStep entry (some e)) (hc : GrantedTo (some e) c) : GrantedTo entry c := by
  obtain ⟨l, rfl, hstate, hclient, -⟩ := queued_same hpush hserver
  obtain ⟨_, ⟨rfl⟩, hlocked, hto⟩ := hc
  exact ⟨l, rfl, hstate.symm.trans hlocked, hclient.symm.trans hto⟩

theorem next_of_queued {entry : Option LockServer.lockInfo} {e : LockServer.lockInfo}
    {id c : Str} (hpush : waiting (some e) = waiting entry ++ [id])
    (hserver : ServerStep entry (some e)) (hc : LockServer.Next (some e) c) :
    LockServer.Next entry c := by
  obtain ⟨l, rfl, hstate, -, hne⟩ := queued_same hpush hserver
  obtain ⟨_, ⟨rfl⟩, hfree, hhead⟩ := hc
  rw [hstate] at hfree
  refine ⟨l, rfl, hfree, ?_⟩
  obtain ⟨front, rest, hcons⟩ := List.exists_cons_of_ne_nil (hne hfree)
  simp only [waiting, Option.getD_some, hcons, List.cons_append] at hpush
  rw [hpush] at hhead
  rw [hcons]
  exact hhead

/-- A client that can use the lock is not the one whose state is set. -/
theorem usable_update {state : Str → lockState} {c c' : Str} {t : lockState}
    (h : state c = .FREE ∨ state c = .LOCKED) (hc' : state c' = t)
    (ht : t ≠ .FREE ∧ t ≠ .LOCKED) (s : lockState) :
    Function.update state c' s c = .FREE ∨ Function.update state c' s c = .LOCKED := by
  rw [← hc'] at ht
  exact h.imp (update_keeps ht.1 · s) (update_keeps ht.2 · s)

/-- A stage is set that was not `granted`. -/
theorem granted_stage (h : Lively v) {c : Str} (hc : GrantedTo v.server c) {x : Tid}
    (hx : v.stage x ≠ some .granted) (o : Option Stage) :
    (v.state c = .FREE ∨ v.state c = .LOCKED)
      ∨ (∃ y, y.1 = c ∧ Function.update v.stage x o y = some .granted)
      ∨ ∃ y g, v.giving y = some g ∧ g.client = c ∧ g.place = .sent := by
  refine (h.granted c hc).imp_right (Or.imp_left ?_)
  rintro ⟨y, hy, hs⟩
  exact ⟨y, hy, update_keeps hx hs o⟩

/-- A place is set that was not `sent`. -/
theorem granted_place (h : Lively v) {c : Str} (hc : GrantedTo v.server c) {x : Tid} {g : Giving}
    (hx : v.giving x = some g) (hg : g.place ≠ .sent) (o : Option Giving) :
    (v.state c = .FREE ∨ v.state c = .LOCKED) ∨ (∃ y, y.1 = c ∧ v.stage y = some .granted)
      ∨ ∃ y g', Function.update v.giving x o y = some g' ∧ g'.client = c ∧ g'.place = .sent := by
  refine (h.granted c hc).imp_right (Or.imp_right ?_)
  rintro ⟨y, g', hy, hcl, hg'⟩
  refine ⟨y, g', update_keeps ?_ hy o, hcl, hg'⟩
  rw [hx]
  rintro ⟨rfl⟩
  exact hg hg'

theorem granted_move (hinv : Inv v) (h : Lively v) (hm : Move v v')
    (hserver : ServerStep v.server v'.server) : ∀ c, GrantedTo v'.server c →
      (v'.state c = .FREE ∨ v'.state c = .LOCKED) ∨ (∃ x, x.1 = c ∧ v'.stage x = some .granted)
        ∨ ∃ x g, v'.giving x = some g ∧ g.client = c ∧ g.place = .sent := by
  intro c hc
  cases hm with
  | stay => exact h.granted c hc
  | ask x hst =>
    have hx : v.stage x ≠ some .granted := by
      intro hs
      rw [(hinv.roles.acquiring x _ hs).1] at hst
      cases hst
    refine (granted_stage h hc hx _).imp_left fun hfl => ?_
    exact usable_update hfl hst (by decide) _
  | serve x st e after hx hst hserved =>
    cases hserved with
    | first hgr hto =>
      refine .inr (.inl ⟨x, hto.unique hc, ?_⟩)
      simp [Stage.served, hgr]
    | next hgr hto =>
      refine .inr (.inl ⟨x, hto.unique hc, ?_⟩)
      simp [Stage.served, hgr]
    | queued hgr hno hpush =>
      refine granted_stage h (granted_of_queued hpush hserver hc) ?_ _
      rw [hx]
      rcases hst with rfl | rfl
      · decide
      · decide
  | retry x hx hr =>
    refine granted_stage h hc ?_ _
    rw [hx]
    decide
  | lock x hx =>
    -- the lock is granted to the client of `x`
    obtain rfl := (hinv.grants.granted x hx).unique hc
    exact .inl (.inr (Function.update_self ..))
  | take x hst =>
    obtain rfl := (hinv.grants.usable x.1 (.inl hst)).unique hc
    exact .inl (.inr (Function.update_self ..))
  | leave x hx =>
    obtain rfl := (hinv.grants.usable x.1 (.inr (hinv.roles.locked x hx).1)).unique hc
    exact .inl (.inl (Function.update_self ..))
  | release x hx =>
    obtain rfl := (hinv.grants.usable x.1 (.inr (hinv.roles.locked x hx).1)).unique hc
    exact .inr (.inr ⟨x, _, Function.update_self .., rfl, rfl⟩)
  | revoke x c' hst =>
    obtain rfl := (hinv.grants.usable c' (.inl hst)).unique hc
    exact .inr (.inr ⟨x, _, Function.update_self .., rfl, rfl⟩)
  | free x g hx hg =>
    obtain ⟨_, ⟨rfl⟩, hlocked, -⟩ := hc
    rw [(LockServer.release_spec v.server).1] at hlocked
    cases hlocked
  | front x g dst hx hg hhead =>
    refine granted_place h hc hx ?_ _
    rw [hg]
    decide
  | tell x g dst hx hg =>
    refine granted_place h hc hx ?_ _
    rw [hg]
    simp
  | done x g hx hg =>
    have hplace : g.place ≠ .sent := by
      rw [hg]
      decide
    refine (granted_place h hc hx hplace _).imp_left fun hfl => ?_
    exact usable_update hfl (hinv.roles.releasing x g hx).1 (by decide) _

theorem retry_move (hinv : Inv v) (h : Lively v) (hm : Move v v')
    (hserver : ServerStep v.server v'.server) : ∀ c, LockServer.Next v'.server c →
      (∃ x, Due v'.giving x) ∨ v'.toRetry c = true ∨ ∃ x, x.1 = c ∧ v'.stage x = some .again := by
  intro c hc
  -- a stage that is set, and was not `again`
  have hstage : ∀ x o, v.stage x ≠ some .again → LockServer.Next v.server c →
      (∃ y, Due v.giving y) ∨ v.toRetry c = true
        ∨ ∃ y, y.1 = c ∧ Function.update v.stage x o y = some .again := by
    intro x o hx hc
    refine (h.retry c hc).imp_right (Or.imp_right ?_)
    rintro ⟨y, hy, hs⟩
    exact ⟨y, hy, update_keeps hx hs o⟩
  cases hm with
  | stay => exact h.retry c hc
  | ask x hst =>
    refine hstage x _ (fun hs => ?_) hc
    rw [(hinv.roles.acquiring x _ hs).1] at hst
    cases hst
  | serve x st e after hx hst hserved =>
    cases hserved with
    | first hgr hto => exact absurd hto hc.not_granted
    | next hgr hto => exact absurd hto hc.not_granted
    | queued hgr hno hpush =>
      -- who asks again is next
      refine hstage x _ (fun hs => hno (hinv.retries.again x hs)) ?_
      exact next_of_queued hpush hserver hc
  | retry x hx hr =>
    obtain rfl := (hinv.retries.told x.1 hr).1.unique hc
    exact .inr (.inr ⟨x, rfl, Function.update_self ..⟩)
  | lock x hx => exact absurd (hinv.grants.granted x hx) hc.not_granted
  | take x hst => exact h.retry c hc
  | leave x hx => exact h.retry c hc
  | release x hx =>
    exact absurd (hinv.grants.usable x.1 (.inr (hinv.roles.locked x hx).1)) hc.not_granted
  | revoke x c' hst => exact absurd (hinv.grants.usable c' (.inl hst)) hc.not_granted
  | free x g hx hg =>
    refine .inl ⟨x, _, Function.update_self .., ?_⟩
    rw [if_pos ((LockServer.release_spec v.server).2.2.mpr ⟨c, hc⟩)]
    rfl
  | front x g dst hx hg hhead => exact .inl ⟨x, _, Function.update_self .., rfl⟩
  | tell x g dst hx hg =>
    obtain rfl := (hinv.retries.dst x g dst hx hg).unique hc
    exact .inr (.inl (Function.update_self ..))
  | done x g hx hg =>
    refine (h.retry c hc).imp_left ?_
    rintro ⟨y, g', hy, hd⟩
    refine ⟨y, g', update_keeps ?_ hy none, hd⟩
    rw [hx]
    rintro ⟨rfl⟩
    rw [hg] at hd
    cases hd

theorem told_move (hinv : Inv v) (h : Lively v) (hm : Move v v') :
    ∀ x, v'.stage x = some .told → x.1 ∈ waiting v'.server := by
  intro y hy
  cases hm with
  | stay => exact h.told y hy
  | ask x hst =>
    rcases update_eq_some hy with ⟨-, hy⟩ | ⟨-, hy⟩
    · cases hy
    · exact h.told y hy
  | serve x st e after hx hst hserved =>
    rcases update_eq_some hy with ⟨rfl, hy⟩ | ⟨hyx, hy⟩
    · cases hserved with
      | first hgr => simp [Stage.served, hgr] at hy
      | next hgr => simp [Stage.served, hgr] at hy
      | queued hgr hno hpush =>
        rw [hpush]
        exact List.mem_append_right _ List.mem_cons_self
    · have hmem := h.told y hy
      cases hserved with
      | first hgr hto hfree hnil =>
        rw [hnil] at hmem
        cases hmem
      | next hgr hto hnext hcons =>
        rw [hcons] at hmem
        refine (List.mem_cons.mp hmem).resolve_left fun hsame => ?_
        exact hyx (hinv.stage_unique hy hx hsame)
      | queued hgr hno hpush =>
        rw [hpush]
        exact List.mem_append_left _ hmem
  | retry x hx hr =>
    rcases update_eq_some hy with ⟨-, hy⟩ | ⟨-, hy⟩
    · cases hy
    · exact h.told y hy
  | lock x hx =>
    rcases update_eq_some hy with ⟨-, hy⟩ | ⟨-, hy⟩
    · cases hy
    · exact h.told y hy
  | take x hst => exact h.told y hy
  | leave x hx => exact h.told y hy
  | release x hx => exact h.told y hy
  | revoke x c' hst => exact h.told y hy
  | free x g hx hg => exact h.told y hy
  | front x g dst hx hg hhead => exact h.told y hy
  | tell x g dst hx hg => exact h.told y hy
  | done x g hx hg => exact h.told y hy

/-- **Every move leaves somebody at work.** -/
theorem lively_move (hinv : Inv v) (h : Lively v) (hm : Move v v') (hkeep : Keeps v v')
    (hserver : ServerStep v.server v'.server) : Lively v' :=
  ⟨acquiring_move h hm, locked_move h hm, releasing_move h hm hkeep,
    granted_move hinv h hm hserver, retry_move hinv h hm hserver, told_move hinv h hm⟩

end Yfs.LockLively
