/-
The mutexes of the three layers (`paxos.cc`, `config.cc`, `rsm.cc`).

A thread may enter at any layer. Calls go down with the mutexes of the layers above
still held; before a call up a layer is to release its own. The functions are written
below as programs that take and release the four mutexes where the source does, over the
data of the layers: the acceptor, the config module and the replicated state machine are
those of the modules before. An RPC of this node returns after any time, with any answer.

The rule is broken in one place. `proposer::run` holds its mutex from its first to its
last line, also over its call of `acceptor::commit`, and from there the calls go up
through `paxos_commit` to `commit_change`. `config::heartbeat` comes the other way: with
the mutex of the config module it asks the proposer whether it is running.
-/
import Yfs.Mutexes
import Yfs.ViewChain
import Yfs.RsmRecovery
import Yfs.RpcDispatch

set_option autoImplicit false
set_option maxRecDepth 4096

namespace Yfs.LayerMutexes

open Text Mutexes Yfs.PaxosAcceptor Yfs.PaxosProposer Yfs.Views Yfs.Rsm Yfs.ConfigCommit

/-! ## Data -/

inductive Mutex where
  | cfg_mutex
  /-- `pxs_mutex` of the proposer. -/
  | pro_mutex
  /-- `pxs_mutex` of the acceptor. -/
  | acc_mutex
  | rsm_mutex
  deriving DecidableEq, Repr

inductive Fn where
  | preparereq | acceptreq | decidereq | commit | commit_wo
  | isrunning | run | prepare | accept | decide
  | paxos_commit | get_view | ismember | restore | heartbeat | doheartbeat | add | remove_wo
  | heartbeater
  | commit_change | commit_change_wo | set_primary | joinreq | join | recovery
  deriving DecidableEq, Repr

/-- What the threads of a node share. -/
structure Store where
  me : Str
  acc : acceptor
  cfg : config
  rsm : rsm
  stable : Bool
  my_n : prop_t

/-- `heartbeat_t`. -/
inductive heartbeat_t where
  | OK | VIEWERR | FAILURE
  deriving DecidableEq, Repr

/-- What an RPC of this node brings back. -/
inductive Answer where
  /-- The node cannot be bound, or the call fails. -/
  | lost
  | paxos (res : Response)
  /-- The status of a heartbeat. -/
  | heartbeat (ret : ℤ)
  /-- The log of `joinreq`. -/
  | join (log : Str)
  deriving DecidableEq, Repr

/-- `OK`, `ERR` and `BUSY` of the handlers. -/
inductive Status where
  | OK | ERR | BUSY
  deriving DecidableEq, Repr

/-- The arguments and local variables of the functions a thread is in. -/
structure Locals where
  /-- The node and the view a call is about. -/
  m : Str := []
  vid : ℕ := 0
  /-- The arguments of an acceptor's handler, and of `commit` and `paxos_commit`. -/
  inst : ℕ := 0
  n : prop_t := ⟨0, []⟩
  v : Str := []
  res : Response := .aborted
  status : Status := .OK
  log : Str := []
  /-- The view number `heartbeat` returns. -/
  hisvid : ℕ := 0
  /-- `proposer::run`: its arguments, its locals, and whether it was told of an old
  instance. -/
  cur_nodes : List Str := []
  newv : Str := []
  run : Run := ⟨0, 0, [], ⟨0, []⟩, .prepare, [], none, [], [], none⟩
  oldinstance : Bool := false
  /-- What `isrunning`, `ismember` and `run` returned. -/
  running : Bool := false
  member : Bool := false
  r : Bool := false
  /-- `ismember`: its arguments. -/
  who : Str := []
  view : ℕ := 0
  /-- `commit_change`: its argument, and the two views of `set_primary`. -/
  vid_new : ℕ := 0
  c : List Str := []
  p : List Str := []
  /-- `heartbeater`. -/
  stable : Bool := true
  cmems : List Str := []
  target : Str := []
  h : heartbeat_t := .OK
  /-- `join` got a log. -/
  joined : Bool := false

abbrev Code := Cmd Mutex Fn Store Locals Answer

/-- A step on the locals. -/
def assign (f : Store → Locals → Locals) : Code := .act fun _ s l => some (s, f s l)

/-- A step on the shared data. -/
def modify (f : Store → Locals → Store) : Code := .act fun _ s l => some (f s l, l)

def verify (b : Store → Locals → Bool) : Code :=
  .act fun _ s l => if b s l then some (s, l) else none

def skip : Code := .act fun _ s l => some (s, l)

def block : List Code → Code
  | [] => skip
  | [c] => c
  | c :: cs => .seq c (block cs)

/-- `ScopedLock`. -/
def scopedLock (m : Mutex) (c : Code) : Code := block [.lock m, c, .unlock m]

/-- A mutex that is let go for a call, a sleep or a condition variable. -/
def released (m : Mutex) (c : Code) : Code := block [.unlock m, c, .lock m]

/-! ## Calls of the config module by the layer above -/

def get_view (vid : Locals → ℕ) (put : List Str → Locals → Locals) : Code :=
  .call .get_view <| scopedLock .cfg_mutex <| assign fun s l => put (get_view_wo s.acc (vid l)) l

def ismember (m : Store → Locals → Str) (vid : Store → Locals → ℕ) : Code :=
  .call .ismember <| block
    [assign fun s l => { l with who := m s l, view := vid s l },
      scopedLock .cfg_mutex <| assign fun s l =>
        { l with member := isamember l.who (get_view_wo s.acc l.view) }]

/-! ## A committed value goes up -/

def set_primary : Code :=
  .call .set_primary <| block
    [get_view (·.vid_new) fun c l => { l with c := c },
      get_view (·.vid_new - 1) fun p l => { l with p := p },
      .act fun _ s l =>
        (Rsm.set_primary (fun i => if i = l.vid_new then l.c else l.p) s.rsm.primary
          l.vid_new).map fun primary => ({ s with rsm := { s.rsm with primary := primary } }, l)]

def commit_change_wo : Code :=
  .call .commit_change_wo <|
    .cond (fun s l => decide (l.vid_new ≤ s.rsm.vid_commit)) skip <| block
      [modify fun s l =>
          { s with rsm := { s.rsm with vid_commit := l.vid_new, inviewchange := true } },
        set_primary,
        -- the test before `breakpoint2`
        ismember (fun s _ => s.me) (fun s _ => s.rsm.vid_commit)]

def commit_change : Code := .call .commit_change <| scopedLock .rsm_mutex commit_change_wo

def paxos_commit : Code :=
  .call .paxos_commit <| scopedLock .cfg_mutex <| block
    [modify fun s l => { s with cfg := ConfigCommit.paxos_commit s.cfg l.inst l.v },
      assign fun s l => { l with vid_new := s.cfg.myvid },
      released .cfg_mutex commit_change]

/-! ## The acceptor -/

def commit_wo : Code :=
  .call .commit_wo <|
    .cond (fun s l => decide (l.inst > s.acc.instance_h))
      (block
        [modify fun s l => { s with acc := PaxosAcceptor.commit_wo s.acc l.inst l.v },
          released .acc_mutex paxos_commit])
      skip

def commit : Code := .call .commit <| scopedLock .acc_mutex commit_wo

def preparereq : Code :=
  .call .preparereq <| scopedLock .acc_mutex <| .act fun _ s l =>
    let r := PaxosAcceptor.preparereq s.acc ⟨l.inst, l.n⟩
    some ({ s with acc := r.2 }, { l with res := .prepare r.1 })

def acceptreq : Code :=
  .call .acceptreq <| scopedLock .acc_mutex <| .act fun _ s l =>
    let r := PaxosAcceptor.acceptreq s.acc ⟨l.inst, l.n, l.v⟩
    some ({ s with acc := r.2 }, { l with res := .accept r.1 })

def decidereq : Code :=
  .call .decidereq <| scopedLock .acc_mutex <|
    .cond (fun s l => l.inst == s.acc.next)
      (block [verify fun s l => s.acc.v_a == l.v, commit_wo])
      -- an acceptor that is behind aborts
      (verify fun s l => decide (l.inst ≤ s.acc.instance_h))

/-! ## The proposer -/

def isrunning : Code :=
  .call .isrunning <| scopedLock .pro_mutex <| assign fun s l => { l with running := !s.stable }

/-- The answer to a request of this stage. -/
def answers : Stage → Response → Bool
  | .prepare, .prepare _ | .accept, .accept _ | .decide, .decide => true
  | _, _ => false

/-- One of the RPCs of a run. -/
def rpc : Code :=
  .act fun i s l =>
    match i, l.run.todo with
    | .lost, _ :: _ => some (s, { l with run := l.run.next })
    | .paxos res, t :: _ =>
      if answers l.run.stage res then
        match l.run.reply t res with
        | .ok run => some (s, { l with run := run })
        | .error v => some (s, { l with oldinstance := true, inst := l.run.inst, v := v })
      else none
    | _, _ => none

/-- `prepare` commits the value of an old instance. -/
def prepare : Code :=
  .call .prepare <|
    .loop (fun _ l => l.run.todo != [] && !l.oldinstance) <|
      block [rpc, .cond (fun _ l => l.oldinstance) commit skip]

def accept : Code := .call .accept <| .loop (fun _ l => l.run.todo != []) rpc

def decide : Code := .call .decide <| .loop (fun _ l => l.run.todo != []) rpc

def run : Code :=
  .call .run <| scopedLock .pro_mutex <|
    .cond (fun s _ => !s.stable) (assign fun _ l => { l with r := false }) <| block
      [.act fun _ s l =>
          let my_n : prop_t := ⟨setn s.acc.n_h.n s.my_n.n, s.me⟩
          some ({ s with stable := false, my_n := my_n },
            { l with
              r := false
              oldinstance := false
              run := ⟨0, l.inst, l.newv, my_n, .prepare, l.cur_nodes, none, [], [], none⟩ }),
        prepare,
        .cond (fun _ l => !l.oldinstance && majority l.cur_nodes l.run.accepts)
          (block
            [assign fun _ l =>
                { l with
                  run := { l.run with
                    stage := .accept
                    v := if l.run.v = [] then l.newv else l.run.v
                    todo := l.run.accepts
                    accepts := [] } },
              accept,
              .cond (fun _ l => majority l.cur_nodes l.run.accepts)
                (block
                  [assign fun _ l =>
                      { l with run := { l.run with stage := .decide, todo := l.run.accepts } },
                    decide,
                    assign fun _ l => { l with r := true }])
                skip])
          skip,
        modify fun s _ => { s with stable := true }]

/-! ## The config module -/

/-- The arguments of `run` for the view after this one. -/
def Locals.proposes (l : Locals) (c : config) (mems : List Str) : Locals :=
  let p := ViewChain.propose c mems
  { l with inst := p.inst, newv := p.value, cur_nodes := c.mems }

def add : Code :=
  .call .add <| scopedLock .cfg_mutex <|
    .cond (fun s l => l.vid != s.cfg.myvid) (assign fun _ l => { l with r := false }) <| block
      [assign fun s l => l.proposes s.cfg (withMember s.cfg.mems l.m),
        released .cfg_mutex run]

def remove_wo : Code :=
  .call .remove_wo <| block
    [assign fun s l => l.proposes s.cfg (withoutMember s.cfg.mems l.m),
      released .cfg_mutex run]

def heartbeat : Code :=
  .call .heartbeat <| scopedLock .cfg_mutex <| block
    [assign fun s l => { l with status := .ERR, hisvid := s.cfg.myvid },
      .cond (fun s l => l.vid == s.cfg.myvid) (assign fun _ l => { l with status := .OK }) <| block
        [isrunning,
          .cond (fun _ l => l.running)
            (block
              [verify fun s l => l.vid == (s.cfg.myvid + 1) % 2 ^ 32
                  || (l.vid + 1) % 2 ^ 32 == s.cfg.myvid,
                assign fun _ l => { l with status := .OK }])
            (assign fun _ l => { l with status := .ERR })]]

/-- What `doheartbeat` makes of the status of its call. -/
def heartbeatResult (ret : ℤ) : heartbeat_t :=
  if ret = 0 then .OK
  else if ret = RpcDispatch.atmostonce_failure ∨ ret = RpcDispatch.oldsrv_failure then .OK
  else if ret < 0 then .FAILURE
  else .VIEWERR

/-- `doheartbeat(target)`. -/
def doheartbeat : Code :=
  .call .doheartbeat <| released .cfg_mutex <| .act fun i s l =>
    match i with
    | .lost => some (s, { l with h := heartbeatResult RpcDispatch.timeout_failure })
    | .heartbeat ret => some (s, { l with h := heartbeatResult ret })
    | _ => none

/-- The node with the smallest id pings the others until one does not answer. -/
def pingAll : Code :=
  .loop (fun _ l => l.cmems != [] && l.stable) <| block
    [assign fun _ l => { l with target := l.cmems.headD [], cmems := l.cmems.tail },
      .cond (fun s l => l.target != s.me)
        (block
          [doheartbeat,
            assign fun _ l => if l.h ≠ .OK then { l with stable := false, m := l.target } else l])
        skip]

/-- The other nodes ping that one. -/
def pingSmallest : Code :=
  block
    [assign fun _ l => { l with target := l.m },
      doheartbeat,
      assign fun _ l => if l.h ≠ .OK then { l with stable := false } else l]

def heartbeater : Code :=
  .call .heartbeater <| scopedLock .cfg_mutex <| .loop (fun _ _ => true) <| block
    -- `pthread_cond_timedwait`
    [released .cfg_mutex skip,
      assign fun s l =>
        { l with stable := true, vid := s.cfg.myvid, cmems := get_view_wo s.acc s.cfg.myvid },
      .cond (fun s l => isamember s.me l.cmems)
        (block
          [assign fun s l => { l with m := ViewChain.smallest s.me l.cmems },
            .cond (fun s l => l.m == s.me) pingAll pingSmallest,
            .cond (fun s l => !l.stable && l.vid == s.cfg.myvid) remove_wo skip])
        skip]

/-- `config::restore`. -/
def restore : Code :=
  .call .restore <| scopedLock .cfg_mutex <| .act fun _ s l =>
    (PaxosAcceptor.restore s.acc l.log).map fun acc =>
      ({ s with acc := acc, cfg := reconstruct acc s.cfg }, l)

/-! ## The replicated state machine -/

def joinreq : Code :=
  .call .joinreq <| scopedLock .rsm_mutex <| block
    [ismember (fun _ l => l.m) (fun s _ => s.rsm.vid_commit),
      .cond (fun _ l => l.member) (assign fun s l => { l with status := .OK, log := dump s.acc }) <|
      .cond (fun s _ => s.me != s.rsm.primary) (assign fun _ l => { l with status := .BUSY }) <|
      block
        [assign fun s l => { l with vid := s.rsm.vid_commit },
          released .rsm_mutex add,
          ismember (fun _ l => l.m) (fun s _ => s.cfg.myvid),
          .cond (fun _ l => l.member)
            (assign fun s l => { l with status := .OK, log := dump s.acc })
            (assign fun _ l => { l with status := .BUSY })]]

def join : Code :=
  .call .join <| block
    [released .rsm_mutex <| .act fun i s l =>
        match i with
        | .join log => some (s, { l with joined := true, log := log })
        | .lost => some (s, { l with joined := false })
        | _ => none,
      .cond (fun _ l => l.joined) restore skip]

/-- The test of the inner loop of `recovery`. -/
def isMemberNow : Code := ismember (fun s _ => s.me) (fun s _ => s.rsm.vid_commit)

def recovery : Code :=
  .call .recovery <| scopedLock .rsm_mutex <| .loop (fun _ _ => true) <| block
    [isMemberNow,
      .loop (fun _ l => !l.member) <| block
        [join,
          .cond (fun _ l => l.joined)
            (block [assign fun s l => { l with vid_new := s.cfg.myvid }, commit_change_wo])
            -- `sleep`
            (released .rsm_mutex skip),
          isMemberNow],
      modify fun s _ => { s with rsm := { s.rsm with vid_insync := s.rsm.vid_commit } },
      .cond (fun s _ => s.rsm.primary == s.me)
        -- `sync_with_backups`
        (block
          [released .rsm_mutex skip,
            modify fun s _ => { s with rsm := { s.rsm with insync := false } }])
        skip,
      .cond (fun s _ => s.rsm.vid_insync != s.rsm.vid_commit) skip <| block
        [modify fun s _ =>
            { s with
              rsm := { s.rsm with myvs := ⟨s.rsm.vid_commit, 1⟩, inviewchange := false } },
          -- `pthread_cond_wait`
          released .rsm_mutex skip]]

/-! ## The threads -/

/-- Where a thread enters. -/
inductive Program where
  | heartbeat | add | heartbeater | preparereq | acceptreq | decidereq | joinreq | recovery
  deriving DecidableEq, Repr

def Program.body : Program → Code
  | .heartbeat => LayerMutexes.heartbeat
  | .add => LayerMutexes.add
  | .heartbeater => LayerMutexes.heartbeater
  | .preparereq => LayerMutexes.preparereq
  | .acceptreq => LayerMutexes.acceptreq
  | .decidereq => LayerMutexes.decidereq
  | .joinreq => LayerMutexes.joinreq
  | .recovery => LayerMutexes.recovery

abbrev Layers := System Mutex Fn Store Locals Answer

abbrev step : Layers → Act Program Locals Answer → Option Layers := Mutexes.step Program.body

/-! ## Which mutex may come before which -/

/-- The stack of calls goes up through `paxos_commit` out of a run of the proposer. -/
def upcalling : List Fn → Bool
  | [] => false
  | .paxos_commit :: fs => fs.contains .run || upcalling fs
  | _ :: fs => upcalling fs

/-- The second mutex is taken while the first is held, by a thread in the functions `fs`. -/
def before (fs : List Fn) : Mutex → Mutex → Bool
  | .rsm_mutex, .cfg_mutex => true
  | .pro_mutex, .acc_mutex => true
  | .cfg_mutex, .pro_mutex => fs.contains .isrunning
  | .pro_mutex, .cfg_mutex | .pro_mutex, .rsm_mutex => upcalling fs
  | _, _ => false

/-- **The programs keep to these pairs**, and release every mutex they take. -/
theorem body_after (p : Program) :
    p.body.after (fun fs h m => before fs h m = true) [] [] = some [] := by
  cases p <;> rfl

/-! ## The condition -/

/-- Some heartbeat is asking the proposer whether it is running. -/
def Asking (s : Layers) : Prop := ∃ th ∈ s.threads, (inside th.code).contains .isrunning = true

/-- Some run of the proposer has called up. -/
def Upcalling (s : Layers) : Prop := ∃ th ∈ s.threads, upcalling (inside th.code) = true

instance (s : Layers) : Decidable (Asking s) :=
  inferInstanceAs (Decidable (∃ th ∈ s.threads, (inside th.code).contains .isrunning = true))

instance (s : Layers) : Decidable (Upcalling s) :=
  inferInstanceAs (Decidable (∃ th ∈ s.threads, upcalling (inside th.code) = true))

/-- A call that is made: `isrunning` only while no run calls up, and `paxos_commit` out of
a run only while nobody asks. -/
def CallOk (s : Layers) (f : Fn) (fs : List Fn) : Prop :=
  (f = .isrunning → ¬ Upcalling s) ∧ (f = .paxos_commit → fs.contains .run = true → ¬ Asking s)

instance (s : Layers) (f : Fn) (fs : List Fn) : Decidable (CallOk s f fs) :=
  inferInstanceAs (Decidable (_ ∧ _))

/-- The function a thread calls next, and those it is in. -/
def nextCall : List (Frame Mutex Fn Store Locals Answer) → Option (Fn × List Fn)
  | .cmd (.call f _) :: k => some (f, inside k)
  | _ => none

def Apart (s : Layers) : Act Program Locals Answer → Prop
  | .run t _ => ∀ th ∈ s.threads[t]?, ∀ c ∈ nextCall th.code, CallOk s c.1 c.2
  | .spawn .. => True

instance (s : Layers) (a : Act Program Locals Answer) : Decidable (Apart s a) :=
  match a with
  | .run t _ =>
    inferInstanceAs (Decidable (∀ th ∈ s.threads[t]?, ∀ c ∈ nextCall th.code, CallOk s c.1 c.2))
  | .spawn .. => instDecidableTrue

theorem upcalling_cons (f : Fn) {fs : List Fn} (h : upcalling fs = true) :
    upcalling (f :: fs) = true := by
  cases f <;> simp [upcalling, h]

theorem upcalling_call {f : Fn} {fs : List Fn} (h : upcalling (f :: fs) = true) :
    upcalling fs = true ∨ f = .paxos_commit ∧ fs.contains .run = true := by
  cases f <;> simp_all [upcalling, or_comm]

/-- Someone asks after a step who did before, or the step is the call. -/
theorem asking_of_step {s s' : Layers} {a : Act Program Locals Answer} (hs : step s a = some s')
    (h : Asking s') : Asking s
      ∨ ∃ t i c k l, a = .run t i ∧ s.threads[t]? = some ⟨.cmd (.call .isrunning c) :: k, l⟩ := by
  have hq := inside_of_step hs (Q := fun fs => fs.contains .isrunning = true) nofun
    (fun f fs hfs => by simp_all) h
  rcases hq with hold | ⟨t, i, f, c, k, l, rfl, ht, hin⟩
  · exact .inl hold
  · by_cases hf : f = .isrunning
    · exact .inr ⟨t, i, c, k, l, rfl, hf ▸ ht⟩
    · refine .inl ⟨_, List.mem_of_getElem? ht, ?_⟩
      simpa [inside, Ne.symm hf] using hin

theorem upcalling_of_step {s s' : Layers} {a : Act Program Locals Answer} (hs : step s a = some s')
    (h : Upcalling s') : Upcalling s
      ∨ ∃ t i c k l, a = .run t i ∧ s.threads[t]? = some ⟨.cmd (.call .paxos_commit c) :: k, l⟩
        ∧ (inside k).contains .run = true := by
  have hq := inside_of_step hs (Q := fun fs => upcalling fs = true) nofun
    (fun f fs hfs => upcalling_cons f hfs) h
  rcases hq with hold | ⟨t, i, f, c, k, l, rfl, ht, hin⟩
  · exact .inl hold
  · rcases upcalling_call hin with hk | ⟨rfl, hrun⟩
    · exact .inl ⟨_, List.mem_of_getElem? ht, hk⟩
    · exact .inr ⟨t, i, c, k, l, rfl, ht, hrun⟩

/-- **The two do not meet.** -/
theorem apart_step {s : Layers} {a : Act Program Locals Answer} {s' : Layers}
    (h : ¬ (Asking s ∧ Upcalling s)) (hok : Apart s a) (hs : step s a = some s') :
    ¬ (Asking s' ∧ Upcalling s') := by
  rintro ⟨hask, hup⟩
  rcases asking_of_step hs hask, upcalling_of_step hs hup with
    ⟨hask | ⟨t, i, c, k, l, rfl, ht⟩, hup | ⟨t', i', c', k', l', ha, ht', hrun⟩⟩
  · exact h ⟨hask, hup⟩
  · subst ha
    exact (hok _ ht' _ rfl).2 rfl hrun hask
  · exact (hok _ ht _ rfl).1 rfl hup
  · -- one thread takes the step, and it makes one call
    cases ha
    cases ht.symm.trans ht'

/-! ## No cycle -/

/-- The order when nobody asks the proposer: it stands above the layers it calls up to. -/
def quietRank : Mutex → ℕ
  | .pro_mutex => 0
  | .rsm_mutex => 1
  | .cfg_mutex => 2
  | .acc_mutex => 3

/-- The order of the layers, when no run calls up. -/
def layerRank : Mutex → ℕ
  | .rsm_mutex => 0
  | .cfg_mutex => 1
  | .pro_mutex => 2
  | .acc_mutex => 3

theorem quietRank_lt {fs : List Fn} {h m : Mutex} (hb : before fs h m = true)
    (hquiet : fs.contains .isrunning = false) : quietRank h < quietRank m := by
  cases h <;> cases m <;> simp_all [before, quietRank]

theorem layerRank_lt {fs : List Fn} {h m : Mutex} (hb : before fs h m = true)
    (hlayer : upcalling fs = false) : layerRank h < layerRank m := by
  cases h <;> cases m <;> simp_all [before, layerRank]

/-- What holds in every state that is reached. -/
structure Reached (s : Layers) : Prop where
  checked : Mutexes.Inv (fun fs h m => before fs h m = true) s
  apart : ¬ (Asking s ∧ Upcalling s)

theorem reached_start (store : Store) : Reached (Mutexes.start store) := by
  refine ⟨inv_start store, ?_⟩
  rintro ⟨⟨th, hth, -⟩, -⟩
  exact absurd hth List.not_mem_nil

theorem reached_step (s : Layers) (a : Act Program Locals Answer) (s' : Layers) (h : Reached s)
    (hok : Apart s a) (hs : step s a = some s') : Reached s' :=
  ⟨inv_step body_after s a s' h.checked hs, apart_step h.apart hok hs⟩

/-- **No deadlock between the layers.** Whatever threads are started and however they take
their steps, as long as no heartbeat asks the proposer while one of its runs has called
up: no thread waits, through any chain of others, for a mutex that it holds itself. -/
theorem no_deadlock {store : Store} {acts : List (Act Program Locals Answer)} {s : Layers}
    (hok : Steps.RunMeets step Apart (Mutexes.start store) acts)
    (hrun : Steps.run step (Mutexes.start store) acts = some s) (t : ℕ) :
    ¬ Relation.TransGen (WaitsFor s) t t := by
  have h : Reached s := Steps.run_inv reached_step (reached_start store) hok hrun
  by_cases hask : Asking s
  · refine no_cycle layerRank (fun t m m' hwait hown => ?_) t
    obtain ⟨k, l, ht⟩ := hwait
    refine layerRank_lt (h.checked.edge ht hown) (Bool.eq_false_iff.mpr fun hup => ?_)
    exact h.apart ⟨hask, _, List.mem_of_getElem? ht, hup⟩
  · refine no_cycle quietRank (fun t m m' hwait hown => ?_) t
    obtain ⟨k, l, ht⟩ := hwait
    refine quietRank_lt (h.checked.edge ht hown) (Bool.eq_false_iff.mpr fun hin => ?_)
    exact hask ⟨_, List.mem_of_getElem? ht, hin⟩

/-! ## A heartbeat meets a run -/

/-- Node 2 in view 2, of nodes 1 and 2, as its log has it. -/
def node2 : Store where
  me := ['2']
  acc := (acceptor.new false ['2'] ['2'] RsmRecovery.joinLog).getD (.blank ['2'] [])
  cfg := ⟨2, [['1'], ['2']]⟩
  rsm := .new ['1']
  stable := true
  my_n := ⟨0, ['2']⟩

def steps (t n : ℕ) : List (Act Program Locals Answer) := List.replicate n (.run t .lost)

/-- The heartbeater of node 2 gets no answer from node 1 and proposes a view without it;
its first prepare request is under way. Then a heartbeat of node 1 arrives, which is in
view 3 already, and asks whether the proposer is running. -/
def asked : List (Act Program Locals Answer) :=
  .spawn .heartbeater {} :: steps 0 47
    ++ .spawn .heartbeat { m := ['1'], vid := 3 } :: steps 1 10

theorem no_deadlock_asked :
    ∃ s, Steps.run step (Mutexes.start node2) asked = some s ∧ WaitsFor s 1 0
      ∧ ∀ t, ¬ Relation.TransGen (WaitsFor s) t t := by
  have hex : (Steps.run step (Mutexes.start node2) asked).map
      (fun s => (waiting s 1, s.owner .pro_mutex)) = some (some .pro_mutex, some 0) := by decide
  have hok : Steps.RunMeets step Apart (Mutexes.start node2) asked := by decide
  obtain ⟨s, hs, hf⟩ := Steps.exists_run hex
  rw [Prod.mk.injEq] at hf
  exact ⟨s, hs, ⟨_, waitsAt_of_waiting hf.1, hf.2⟩, no_deadlock hok hs⟩

/-- Node 1 answers the prepare request: view 3 is decided. -/
def told : List (Act Program Locals Answer) :=
  asked ++ .run 0 (.paxos (.prepare ⟨true, false, ⟨0, []⟩, "1 2 3 ".toList⟩)) :: steps 0 14

/-- **A deadlock.** The run of the proposer commits view 3 and waits for `cfg_mutex`, which
the heartbeat holds while it waits for the proposer. -/
theorem heartbeat_deadlock :
    ∃ s, Steps.run step (Mutexes.start node2) told = some s
      ∧ WaitsFor s 0 1 ∧ WaitsFor s 1 0 ∧ Relation.TransGen (WaitsFor s) 0 0 := by
  have hex : (Steps.run step (Mutexes.start node2) told).map
      (fun s => (waiting s 0, waiting s 1, s.owner .cfg_mutex, s.owner .pro_mutex))
        = some (some .cfg_mutex, some .pro_mutex, some 1, some 0) := by decide
  obtain ⟨s, hs, hf⟩ := Steps.exists_run hex
  simp only [Prod.mk.injEq] at hf
  obtain ⟨h0, h1, hcfg, hpro⟩ := hf
  have h01 : WaitsFor s 0 1 := ⟨_, waitsAt_of_waiting h0, hcfg⟩
  have h10 : WaitsFor s 1 0 := ⟨_, waitsAt_of_waiting h1, hpro⟩
  exact ⟨s, hs, h01, h10, .tail (.single h01) h10⟩

end Yfs.LayerMutexes
