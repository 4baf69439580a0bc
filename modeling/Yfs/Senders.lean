/-
One connection with any number of threads in `send` (`rpc/connection.cc`).

`send` gives the connection's one buffer to one thread at a time: the others sleep on
`send_wait_` until the buffer is free. A PDU that `write()` does not take at once is
finished by `write_cb`, in the poll thread, while its sender sleeps on `send_complete_`.
Meanwhile `read_cb` may find the connection broken, a thread may close it, and either
condition variable may wake a thread for no reason. `Connection` follows the bytes of PDUs
that are sent one after the other; here is why they are sent one after the other.

Everything that `send`, the callbacks and `closeconn` do with `m_` in hand is one step.
`block_remove_fd` is two, as the poll thread can be in between: it takes the descriptor
out of the sets, and returns when the poll thread has come round and has no callback of
the descriptor to make. What `readpdu` does is left to `Connection`; here it succeeds or
fails. The other end reads the stream as it does there.
-/
import Yfs.Framing
import Yfs.Refs

set_option autoImplicit false

namespace Yfs.Senders

open Yfs.Connection Yfs.Framing

/-! ## The connection and its threads -/

/-- Where a thread is. -/
inductive Thread where
  | out
  /-- In `send`, asleep on `send_wait_`. -/
  | queued (p : Pdu)
  /-- In `send`, woken from `send_wait_`. -/
  | roused (p : Pdu)
  /-- In `send`, asleep on `send_complete_`. -/
  | writing (p : Pdu)
  /-- In `send`, woken from `send_complete_`. -/
  | resumed (p : Pdu)
  /-- In `send`, whose `write()` has failed: in `block_remove_fd`. -/
  | failing (p : Pdu) (unwatched : Bool)
  /-- In `send`, after `block_remove_fd`. -/
  | failed (p : Pdu)
  /-- In `closeconn`, which has marked the connection dead: in `block_remove_fd`. -/
  | closing (unwatched : Bool)
  /-- `send` has returned. -/
  | returned (ret : Bool)

/-- Where the poll thread is, as far as it concerns this descriptor. -/
inductive Poll where
  | away
  /-- `wait_ready` has found the descriptor ready to read and to write. -/
  | found (rd wr : Bool)
  /-- It has called `read_cb`, and is to call `write_cb` if `wr`. -/
  | reading (wr : Bool)
  /-- It has called `write_cb`. -/
  | writing
  deriving DecidableEq, Repr

/-- Who has marked the connection dead. -/
inductive Killer where
  | send
  | read_cb
  | write_cb
  | closeconn
  deriving DecidableEq, Repr

structure Conn where
  /-- `wpdu_`, `dead_`, the stream and its other end. -/
  link : Link
  waiters_ : ℕ
  /-- Is the descriptor watched for reading? -/
  rd : Bool
  /-- Is the descriptor watched for writing? -/
  wr : Bool
  /-- Is `callbacks_[fd_]` set? -/
  cb : Bool
  poll : Poll
  threads : List Thread
  killer : Option Killer
  /-- What was sent by each `send` that has returned, and what it has returned. -/
  done : List (Pdu × Bool)
  /-- The `VERIFY(!dead_)` of `write_cb` has failed. -/
  aborted : Bool

/-- A new connection: its constructor watches the descriptor for reading. -/
def Conn.new (n : ℕ) : Conn :=
  ⟨start, 0, true, false, true, .away, List.replicate n .out, none, [], false⟩

/-- Is the thread outside of the connection? -/
def Thread.outside : Thread → Bool
  | .out => true
  | .returned _ => true
  | _ => false

/-- The PDU of a thread that waits for the buffer. -/
def Thread.queues : Thread → Option Pdu
  | .queued p => some p
  | .roused p => some p
  | _ => none

/-- Is the thread counted in `waiters_`? -/
def Thread.waits (th : Thread) : Bool := th.queues.isSome

/-- The PDU of the thread that has the buffer. -/
def Thread.sends : Thread → Option Pdu
  | .writing p => some p
  | .resumed p => some p
  | .failing p _ => some p
  | .failed p => some p
  | _ => none

/-- Has the thread the buffer? -/
def Thread.owns (th : Thread) : Bool := th.sends.isSome

/-- Woken from `send_wait_`. -/
def Thread.rouse : Thread → Thread
  | .queued p => .roused p
  | th => th

def Thread.completing : Thread → Bool
  | .writing _ => true
  | _ => false

/-- The first half of `block_remove_fd`. -/
def Thread.unwatch : Thread → Option Thread
  | .failing p false => some (.failing p true)
  | .closing false => some (.closing true)
  | _ => none

/-- The second half of `block_remove_fd`. -/
def Thread.removed : Thread → Option Thread
  | .failing p true => some (.failed p)
  | .closing true => some .out
  | _ => none

/-- A condition variable wakes the thread for no reason. -/
def Thread.spurious : Thread → Option Thread
  | .queued p => some (.roused p)
  | .writing p => some (.resumed p)
  | _ => none

/-- `pthread_cond_signal(&send_complete_)`; `u` is the thread that is woken, if one is. -/
def signal (ths : List Thread) (u : ℕ) : Option (List Thread) :=
  if ths.any Thread.completing then
    match ths[u]? with
    | some (.writing p) => some (ths.set u (.resumed p))
    | _ => none
  else some ths

namespace Conn

/-- The condition of the loop on `send_wait_`. -/
def blocked (c : Conn) : Bool := !c.link.wdead && c.link.wpdu.buf.isSome

/-- The condition of the loop on `send_complete_`. -/
def unfinished (c : Conn) : Prop :=
  c.link.wdead = false ∧ 0 ≤ c.link.wpdu.solong ∧ c.link.wpdu.solong < c.link.wpdu.sz

instance (c : Conn) : Decidable c.unfinished := inferInstanceAs (Decidable (_ ∧ _ ∧ _))

/-- The end of `send`. -/
def finish (c : Conn) (t : ℕ) (p : Pdu) : Conn :=
  let ret := !c.link.wdead && decide (c.link.wpdu.solong = c.link.wpdu.sz)
  let ths := c.threads.set t (.returned ret)
  { c with
    link := { c.link with wpdu := .empty }
    threads := if 0 < c.waiters_ then ths.map Thread.rouse else ths
    done := c.done ++ [(p, ret)] }

/-- `send` at the loop on `send_complete_`. -/
def complete (c : Conn) (t : ℕ) (p : Pdu) : Conn :=
  if c.unfinished then { c with threads := c.threads.set t (.writing p) } else c.finish t p

/-- `send` takes the buffer. -/
def take (c : Conn) (t : ℕ) (p : Pdu) : Conn :=
  { c with
    link := { c.link with wpdu := ⟨some p.buf, p.sz, 0⟩, sent := c.link.sent ++ [p] }
    threads := c.threads.set t (.resumed p) }

/-- `send` after the loop on `send_wait_`. -/
def proceed (c : Conn) (t : ℕ) (p : Pdu) (w : Write) : Option Conn :=
  if c.link.wdead then
    some { c with threads := c.threads.set t (.returned false), done := c.done ++ [(p, false)] }
  else
    (writepdu (c.take t p).link w).map fun r =>
      let c := { c.take t p with link := r.1 }
      if r.2 = false then
        { c with
          link := { r.1 with wdead := true }
          killer := some .send
          threads := c.threads.set t (.failing p false) }
      else if r.1.wpdu.solong = r.1.wpdu.sz then c.finish t p
      else { c with wr := true, cb := true }.complete t p

def send (c : Conn) (t : ℕ) (p : Pdu) (w : Write) : Option Conn :=
  if c.blocked then
    some { c with waiters_ := c.waiters_ + 1, threads := c.threads.set t (.queued p) }
  -- `waiters_` goes up and down again
  else c.proceed t p w

/-- `send` when it has `m_` again after a wait on `send_wait_`. -/
def retry (c : Conn) (t : ℕ) (p : Pdu) (w : Write) : Option Conn :=
  if c.blocked then some { c with threads := c.threads.set t (.queued p) }
  else { c with waiters_ := c.waiters_ - 1, threads := c.threads.set t .out }.proceed t p w

def closeconn (c : Conn) (t : ℕ) : Conn :=
  if c.link.wdead then { c with threads := c.threads.set t .out }
  else
    { c with
      link := { c.link with wdead := true }
      killer := some .closeconn
      threads := c.threads.set t (.closing false) }

/-- A callback finds the connection broken: `del_callback(fd_, CB_RDWR)`. -/
def kill (c : Conn) (k : Killer) (l : Link) (ths : List Thread) : Conn :=
  { c with
    link := { l with wdead := true }
    killer := some k
    rd := false
    wr := false
    cb := false
    threads := ths }

/-- `succ` says what `readpdu` returns, if it is called. -/
def read_cb (c : Conn) (wr succ : Bool) (u : ℕ) : Option Conn :=
  let c := { c with poll := .found false wr }
  if c.link.wdead || succ then some c
  else (signal c.threads u).map fun ths => c.kill .read_cb c.link ths

def write_cb (c : Conn) (w : Write) (u : ℕ) : Option Conn :=
  if c.link.wdead then some { c with aborted := true }
  else
    let c := { c with poll := .away }
    -- nothing to write: `del_callback(fd_, CB_WRONLY)`
    if c.link.wpdu.sz = 0 then some { c with wr := false, cb := c.rd && c.cb }
    else (writepdu c.link w).bind fun r =>
      if r.2 = false then (signal c.threads u).map fun ths => c.kill .write_cb r.1 ths
      else if r.1.wpdu.solong < r.1.wpdu.sz then some { c with link := r.1 }
      else (signal c.threads u).map fun ths => { c with link := r.1, threads := ths }

/-- The poll thread goes on in `wait_loop`; it tests `callbacks_[fd_]` without a mutex. -/
def dispatch (c : Conn) : Option Poll :=
  match c.poll with
  | .found true wr => some (if c.cb then .reading wr else .found false wr)
  | .found false true => some (if c.cb then .writing else .away)
  | .found false false => some .away
  | _ => none

end Conn

inductive Act where
  | send (t : ℕ) (p : Pdu) (w : Write)
  /-- A thread that was woken in `send` has `m_` again. -/
  | resume (t : ℕ) (w : Write)
  | closeconn (t : ℕ)
  | unwatch (t : ℕ)
  | removed (t : ℕ)
  | spurious (t : ℕ)
  /-- `wait_ready` finds the descriptor ready. -/
  | ready (rd wr : Bool)
  | dispatch
  | read_cb (succ : Bool) (u : ℕ)
  | write_cb (w : Write) (u : ℕ)
  /-- The other end reads. -/
  | peer_read (junk : ℤ → UInt8) (len body : Read) (accept : Bool)
  | peer_close

/-- One step of one thread. -/
def step (c : Conn) (a : Act) : Option Conn :=
  if c.aborted then none
  else match a with
  | .send t p w => c.threads[t]?.bind fun th => if th.outside then c.send t p w else none
  | .resume t w => c.threads[t]?.bind fun th =>
    match th with
    | .roused p => c.retry t p w
    | .resumed p => some (c.complete t p)
    | .failed p => some (c.finish t p)
    | _ => none
  | .closeconn t => c.threads[t]?.bind fun th => if th.outside then some (c.closeconn t) else none
  | .unwatch t => (c.threads[t]?.bind Thread.unwatch).map fun th =>
    { c with rd := false, wr := false, threads := c.threads.set t th }
  | .removed t =>
    if c.poll = .away then
      (c.threads[t]?.bind Thread.removed).map fun th =>
        { c with cb := false, threads := c.threads.set t th }
    else none
  | .spurious t => (c.threads[t]?.bind Thread.spurious).map fun th =>
    { c with threads := c.threads.set t th }
  | .ready rd wr =>
    if c.poll = .away ∧ (rd = true → c.rd = true) ∧ (wr = true → c.wr = true) then
      some { c with poll := .found rd wr }
    else none
  | .dispatch => c.dispatch.map fun poll => { c with poll }
  | .read_cb succ u =>
    match c.poll with
    | .reading wr => c.read_cb wr succ u
    | _ => none
  | .write_cb w u => if c.poll = .writing then c.write_cb w u else none
  | .peer_read junk len body accept =>
    (Connection.step c.link (.read_cb junk len body accept)).map fun link => { c with link }
  | .peer_close => (Connection.step c.link .closeReceiver).map fun link => { c with link }

/-- Only PDUs of the sizes of the RPC library are sent. -/
def Act.Sized : Act → Prop
  | .send _ p _ => Framing.Sized p
  | _ => True

instance : DecidablePred Act.Sized
  | .send _ p _ => inferInstanceAs (Decidable (Framing.Sized p))
  | .resume _ _ => .isTrue trivial
  | .closeconn _ => .isTrue trivial
  | .unwatch _ => .isTrue trivial
  | .removed _ => .isTrue trivial
  | .spurious _ => .isTrue trivial
  | .ready _ _ => .isTrue trivial
  | .dispatch => .isTrue trivial
  | .read_cb _ _ => .isTrue trivial
  | .write_cb _ _ => .isTrue trivial
  | .peer_read _ _ _ _ => .isTrue trivial
  | .peer_close => .isTrue trivial

def Act.isSpurious : Act → Bool
  | .spurious _ => true
  | _ => false

/-! ## What a step does -/

section Cases

variable {c c' : Conn} {ths ths' : List Thread}

/-- A signal wakes one sender that waits for its message to be written, if there is one. -/
theorem signal_cases {u : ℕ} (h : signal ths u = some ths') :
    ((∀ th ∈ ths, th.completing = false) ∧ ths' = ths)
      ∨ ∃ p, ths[u]? = some (.writing p) ∧ ths' = ths.set u (.resumed p) := by
  unfold signal at h
  by_cases hany : ths.any Thread.completing = true
  · rw [if_pos hany] at h
    split at h
    · next p hp => exact .inr ⟨p, hp, (Option.some.inj h).symm⟩
    · cases h
  · rw [if_neg hany] at h
    refine .inl ⟨fun th hth => Bool.eq_false_iff.mpr fun hc => hany ?_, (Option.some.inj h).symm⟩
    exact List.any_eq_true.mpr ⟨th, hth, hc⟩

/-- `send` after the loop on `send_wait_`: it finds the connection dead; or it takes the
buffer, and the first `write()` fails, takes everything, or leaves the rest to
`write_cb`. -/
theorem proceed_cases {t : ℕ} {p : Pdu} {w : Write} (h : c.proceed t p w = some c') :
    (c.link.wdead = true ∧ c' = { c with
        threads := c.threads.set t (.returned false), done := c.done ++ [(p, false)] })
      ∨ (c.link.wdead = false ∧ ∃ l,
        (writepdu (c.take t p).link w = some (l, false) ∧ c' = { c.take t p with
            link := { l with wdead := true }
            killer := some .send
            threads := (c.take t p).threads.set t (.failing p false) })
          ∨ (writepdu (c.take t p).link w = some (l, true) ∧ l.wpdu.solong = l.wpdu.sz
            ∧ c' = { c.take t p with link := l }.finish t p)
          ∨ (writepdu (c.take t p).link w = some (l, true)
            ∧ c' = { c.take t p with link := l, wr := true, cb := true }.complete t p)) := by
  unfold Conn.proceed at h
  split at h
  · next hd => exact .inl ⟨hd, (Option.some.inj h).symm⟩
  · next hd =>
    obtain ⟨⟨l, succ⟩, hwrite, rfl⟩ := Option.map_eq_some_iff.mp h
    refine .inr ⟨Bool.eq_false_iff.mpr hd, l, ?_⟩
    dsimp only
    split
    · next hsucc =>
      obtain rfl : succ = false := hsucc
      exact .inl ⟨hwrite, rfl⟩
    · next hsucc =>
      obtain rfl : succ = true := Bool.eq_true_of_not_eq_false hsucc
      split
      · next hend => exact .inr (.inl ⟨hwrite, hend, rfl⟩)
      · exact .inr (.inr ⟨hwrite, rfl⟩)

theorem read_cb_cases {wr succ : Bool} {u : ℕ} (h : c.read_cb wr succ u = some c') :
    c' = { c with poll := .found false wr }
      ∨ (c.link.wdead = false ∧ ∃ ths, signal c.threads u = some ths
        ∧ c' = { c with poll := .found false wr }.kill .read_cb c.link ths) := by
  unfold Conn.read_cb at h
  dsimp only at h
  split at h
  · exact .inl (Option.some.inj h).symm
  · next hcond =>
    obtain ⟨ths, hsig, rfl⟩ := Option.map_eq_some_iff.mp h
    refine .inr ⟨?_, ths, hsig, rfl⟩
    exact Bool.eq_false_iff.mpr fun hd => hcond (by rw [hd]; rfl)

theorem write_cb_cases {w : Write} {u : ℕ} (h : c.write_cb w u = some c') :
    (c.link.wdead = true ∧ c' = { c with aborted := true })
      ∨ (c.link.wdead = false
        ∧ ((c.link.wpdu.sz = 0 ∧ c' = { c with poll := .away, wr := false, cb := c.rd && c.cb })
          ∨ (∃ l ths, writepdu c.link w = some (l, false) ∧ signal c.threads u = some ths
            ∧ c' = { c with poll := .away }.kill .write_cb l ths)
          ∨ (∃ l, writepdu c.link w = some (l, true) ∧ l.wpdu.solong < l.wpdu.sz
            ∧ c' = { c with poll := .away, link := l })
          ∨ (∃ l ths, writepdu c.link w = some (l, true) ∧ signal c.threads u = some ths
            ∧ c' = { c with poll := .away, link := l, threads := ths }))) := by
  unfold Conn.write_cb at h
  split at h
  · next hd => exact .inl ⟨hd, (Option.some.inj h).symm⟩
  · next hd =>
    refine .inr ⟨Bool.eq_false_iff.mpr hd, ?_⟩
    dsimp only at h
    split at h
    · next hsz => exact .inl ⟨hsz, (Option.some.inj h).symm⟩
    · obtain ⟨⟨l, succ⟩, hwrite, h⟩ := Option.bind_eq_some_iff.mp h
      dsimp only at h
      split at h
      · next hsucc =>
        obtain rfl : succ = false := hsucc
        obtain ⟨ths, hsig, rfl⟩ := Option.map_eq_some_iff.mp h
        exact .inr (.inl ⟨l, ths, hwrite, hsig, rfl⟩)
      · next hsucc =>
        obtain rfl : succ = true := Bool.eq_true_of_not_eq_false hsucc
        split at h
        · next hlt => exact .inr (.inr (.inl ⟨l, hwrite, hlt, (Option.some.inj h).symm⟩))
        · obtain ⟨ths, hsig, rfl⟩ := Option.map_eq_some_iff.mp h
          exact .inr (.inr (.inr ⟨l, ths, hwrite, hsig, rfl⟩))

/-- What a thread does with `m_` in hand, or the poll thread without it. -/
inductive Moves (c : Conn) : Act → Conn → Prop
  | enqueue {t : ℕ} {p : Pdu} {w : Write} {th : Thread} (hth : c.threads[t]? = some th)
      (hout : th.outside = true) (hb : c.blocked = true) :
      Moves c (.send t p w)
        { c with waiters_ := c.waiters_ + 1, threads := c.threads.set t (.queued p) }
  | proceed {t : ℕ} {p : Pdu} {w : Write} {th : Thread} {c' : Conn}
      (hth : c.threads[t]? = some th) (hout : th.outside = true) (hb : c.blocked = false)
      (h : c.proceed t p w = some c') : Moves c (.send t p w) c'
  | requeue {t : ℕ} {p : Pdu} {w : Write} (hth : c.threads[t]? = some (.roused p))
      (hb : c.blocked = true) :
      Moves c (.resume t w) { c with threads := c.threads.set t (.queued p) }
  | leave {t : ℕ} {p : Pdu} {w : Write} {c' : Conn} (hth : c.threads[t]? = some (.roused p))
      (hb : c.blocked = false)
      (h : { c with waiters_ := c.waiters_ - 1, threads := c.threads.set t .out }.proceed t p w
        = some c') : Moves c (.resume t w) c'
  | complete {t : ℕ} {p : Pdu} {w : Write} (hth : c.threads[t]? = some (.resumed p)) :
      Moves c (.resume t w) (c.complete t p)
  | finish {t : ℕ} {p : Pdu} {w : Write} (hth : c.threads[t]? = some (.failed p)) :
      Moves c (.resume t w) (c.finish t p)
  | closeconn {t : ℕ} {th : Thread} (hth : c.threads[t]? = some th) (hout : th.outside = true) :
      Moves c (.closeconn t) (c.closeconn t)
  | unwatch {t : ℕ} {th th' : Thread} (hth : c.threads[t]? = some th)
      (hun : th.unwatch = some th') :
      Moves c (.unwatch t) { c with rd := false, wr := false, threads := c.threads.set t th' }
  | removed {t : ℕ} {th th' : Thread} (hpoll : c.poll = .away) (hth : c.threads[t]? = some th)
      (hre : th.removed = some th') :
      Moves c (.removed t) { c with cb := false, threads := c.threads.set t th' }
  | spurious {t : ℕ} {th th' : Thread} (hth : c.threads[t]? = some th)
      (hsp : th.spurious = some th') :
      Moves c (.spurious t) { c with threads := c.threads.set t th' }
  | ready {rd wr : Bool} (hpoll : c.poll = .away) (hrd : rd = true → c.rd = true)
      (hwr : wr = true → c.wr = true) : Moves c (.ready rd wr) { c with poll := .found rd wr }
  | dispatch {poll : Poll} (h : c.dispatch = some poll) : Moves c .dispatch { c with poll }
  | read_cb {wr succ : Bool} {u : ℕ} {c' : Conn} (hpoll : c.poll = .reading wr)
      (h : c.read_cb wr succ u = some c') : Moves c (.read_cb succ u) c'
  | write_cb {w : Write} {u : ℕ} {c' : Conn} (hpoll : c.poll = .writing)
      (h : c.write_cb w u = some c') : Moves c (.write_cb w u) c'
  | peer_read {junk : ℤ → UInt8} {len body : Read} {accept : Bool} {link : Link}
      (h : Connection.step c.link (.read_cb junk len body accept) = some link) :
      Moves c (.peer_read junk len body accept) { c with link }
  | peer_close {link : Link} (h : Connection.step c.link .closeReceiver = some link) :
      Moves c .peer_close { c with link }

/-- Every step of the connection is one of the moves, and none is made after an abort. -/
theorem moves_of_step {a : Act} (h : step c a = some c') : c.aborted = false ∧ Moves c a c' := by
  unfold step at h
  obtain ⟨hna, h⟩ := Option.ite_none_left_eq_some.mp h
  refine ⟨Bool.eq_false_iff.mpr hna, ?_⟩
  cases a with
  | send t p w =>
    obtain ⟨th, hth, h⟩ := Option.bind_eq_some_iff.mp h
    obtain ⟨hout, h⟩ := Option.ite_none_right_eq_some.mp h
    unfold Conn.send at h
    split at h
    · next hb =>
      cases h
      exact .enqueue hth hout hb
    · next hb => exact .proceed hth hout (Bool.eq_false_iff.mpr hb) h
  | resume t w =>
    obtain ⟨th, hth, h⟩ := Option.bind_eq_some_iff.mp h
    cases th with
    | roused p =>
      change c.retry t p w = some c' at h
      unfold Conn.retry at h
      split at h
      · next hb =>
        cases h
        exact .requeue hth hb
      · next hb => exact .leave hth (Bool.eq_false_iff.mpr hb) h
    | resumed p =>
      cases h
      exact .complete hth
    | failed p =>
      cases h
      exact .finish hth
    | out | queued p | writing p | failing p un | closing un | returned ret => cases h
  | closeconn t =>
    obtain ⟨th, hth, h⟩ := Option.bind_eq_some_iff.mp h
    obtain ⟨hout, h⟩ := Option.ite_none_right_eq_some.mp h
    cases h
    exact .closeconn hth hout
  | unwatch t =>
    obtain ⟨th', hbind, rfl⟩ := Option.map_eq_some_iff.mp h
    obtain ⟨th, hth, hun⟩ := Option.bind_eq_some_iff.mp hbind
    exact .unwatch hth hun
  | removed t =>
    obtain ⟨hpoll, h⟩ := Option.ite_none_right_eq_some.mp h
    obtain ⟨th', hbind, rfl⟩ := Option.map_eq_some_iff.mp h
    obtain ⟨th, hth, hre⟩ := Option.bind_eq_some_iff.mp hbind
    exact .removed hpoll hth hre
  | spurious t =>
    obtain ⟨th', hbind, rfl⟩ := Option.map_eq_some_iff.mp h
    obtain ⟨th, hth, hsp⟩ := Option.bind_eq_some_iff.mp hbind
    exact .spurious hth hsp
  | ready rd wr =>
    obtain ⟨⟨hpoll, hrd, hwr⟩, h⟩ := Option.ite_none_right_eq_some.mp h
    cases h
    exact .ready hpoll hrd hwr
  | dispatch =>
    obtain ⟨poll, hpoll, rfl⟩ := Option.map_eq_some_iff.mp h
    exact .dispatch hpoll
  | read_cb succ u =>
    dsimp only at h
    split at h
    · next wr hpoll => exact .read_cb hpoll h
    · cases h
  | write_cb w u =>
    obtain ⟨hpoll, h⟩ := Option.ite_none_right_eq_some.mp h
    exact .write_cb hpoll h
  | peer_read junk len body accept =>
    obtain ⟨link, hlink, rfl⟩ := Option.map_eq_some_iff.mp h
    exact .peer_read hlink
  | peer_close =>
    obtain ⟨link, hlink, rfl⟩ := Option.map_eq_some_iff.mp h
    exact .peer_close hlink

end Cases

/-! ## The stream -/

section Stream

variable {l l' : Link} {p : Pdu}

/-- Everything that was written. -/
def written (l : Link) : List UInt8 := l.delivered ++ l.wire

theorem streams_dead (h : Streams l) (wpdu : charbuf) :
    Streams { l with wdead := true, wpdu } := by
  obtain ⟨pending, got, unwritten, h⟩ := h
  exact ⟨pending, got, unwritten, h.sized, h.frames, h.stream, h.read, .dead rfl, h.reader⟩

/-- A PDU is written from its beginning to its end. -/
theorem streams_busy (h : Streams l) (hd : l.wdead = false) (hb : l.wpdu.buf.isSome = true) :
    0 ≤ l.wpdu.solong ∧ l.wpdu.solong ≤ l.wpdu.sz := by
  obtain ⟨pending, got, unwritten, h⟩ := h
  cases h.writer with
  | idle hidle =>
    rw [hidle] at hb
    cases hb
  | busy b hbuf h0 hle => exact ⟨h0, hle⟩
  | dead hdead =>
    rw [hd] at hdead
    cases hdead

/-- The buffer is given back when the PDU is written, or when the connection is dead. -/
theorem streams_free (h : Streams l) (hend : l.wdead = true ∨ l.wpdu.sz ≤ l.wpdu.solong) :
    Streams { l with wpdu := .empty } := by
  obtain ⟨pending, got, unwritten, h⟩ := h
  refine ⟨pending, got, unwritten, h.sized, h.frames, h.stream, h.read, ?_, h.reader⟩
  cases hd : l.wdead with
  | true => exact .dead rfl
  | false =>
    have hwriter := h.writer
    rw [hd] at hwriter hend
    exact .idle rfl (hwriter.done (hend.resolve_left Bool.false_ne_true))

/-- A message is put into an empty buffer; none of its bytes is on the stream yet. -/
theorem streams_take (h : Streams l) (hd : l.wdead = false) (hb : l.wpdu.buf.isSome = false)
    (hp : Sized p) :
    Streams { l with wpdu := ⟨some p.buf, p.sz, 0⟩, sent := l.sent ++ [p] } := by
  obtain ⟨pending, got, unwritten, h⟩ := h
  have hnil := h.unwritten_eq_nil hd (Bool.eq_false_iff.mp hb)
  subst hnil
  exact ⟨_, _, _, h.push hp⟩

/-- A write puts the next bytes of the message on the stream; with one that fails the
connection dies. -/
theorem streams_write (h : Streams l) (hd : l.wdead = false) {w : Write} {succ : Bool}
    (hs : writepdu l w = some (l', succ)) :
    (succ = true ∧ Streams l') ∨ (succ = false ∧ Streams { l' with wdead := true }) := by
  obtain ⟨pending, got, unwritten, h⟩ := h
  rcases inv_writepdu h hd hs with ⟨hsucc, -, u, hu⟩ | ⟨hsucc, hu⟩
  · exact .inl ⟨hsucc, pending, got, u, hu⟩
  · exact .inr ⟨hsucc, pending, got, unwritten, hu l'.wpdu⟩

/-- What was written is the beginning of what is sent. -/
theorem written_of_streams (h : Streams l) : written l <+: (l.sent.map frame).flatten := by
  obtain ⟨pending, got, unwritten, h⟩ := h
  refine ⟨unwritten, ?_⟩
  rw [written, h.read, h.frames, List.flatten_append, ← h.stream]
  simp only [List.append_assoc]

/-- A sender that has nothing left to write has written everything. -/
theorem written_all (h : Streams l) (hd : l.wdead = false) (hend : l.wpdu.sz ≤ l.wpdu.solong) :
    written l = (l.sent.map frame).flatten := by
  obtain ⟨pending, got, unwritten, h⟩ := h
  have hwriter := h.writer
  rw [hd] at hwriter
  have hnil := hwriter.done hend
  rw [written, h.read, h.frames, List.flatten_append, ← h.stream, hnil]
  simp only [List.append_assoc, List.append_nil]

/-- What `writepdu` leaves as it was. -/
theorem writepdu_keeps {w : Write} {succ : Bool} (hs : writepdu l w = some (l', succ)) :
    l'.sent = l.sent ∧ l'.wdead = l.wdead ∧ l'.wpdu.buf.isSome = l.wpdu.buf.isSome
      ∧ written l <+: written l'
      ∧ (succ = true → l'.wpdu.sz = l.wpdu.sz ∧ l.wpdu.solong ≤ l'.wpdu.solong) := by
  rcases writepdu_cases hs with ⟨rfl, -⟩ | ⟨b, b', hb, -, ⟨n, -, -, rfl⟩ | ⟨hsucc, rfl⟩⟩
  · exact ⟨rfl, rfl, rfl, List.prefix_rfl, fun _ => ⟨rfl, Int.le_refl _⟩⟩
  · rw [hb]
    refine ⟨rfl, rfl, rfl, ⟨_, List.append_assoc ..⟩, fun _ => ⟨rfl, ?_⟩⟩
    exact Int.le_add_of_nonneg_right (Int.natCast_nonneg n)
  · rw [hb]
    refine ⟨rfl, rfl, rfl, List.prefix_rfl, fun h => ?_⟩
    rw [hsucc] at h
    cases h

/-- The other end has not touched what this end uses. -/
structure Kept (l l' : Link) : Prop where
  wpdu : l'.wpdu = l.wpdu
  wdead : l'.wdead = l.wdead
  sent : l'.sent = l.sent
  written : written l' = written l

theorem Kept.trans {l'' : Link} (h : Kept l l') (h' : Kept l' l'') : Kept l l'' :=
  ⟨h'.wpdu.trans h.wpdu, h'.wdead.trans h.wdead, h'.sent.trans h.sent,
    h'.written.trans h.written⟩

theorem kept_take {count : ℤ} {n : ℕ} {bs : List UInt8}
    (hs : Connection.take l count n = some (l', bs)) : Kept l l' := by
  obtain ⟨rest, hwire, -, -, -, rfl⟩ := take_cases hs
  refine ⟨rfl, rfl, rfl, ?_⟩
  rw [written, written, hwire]
  exact List.append_assoc ..

theorem kept_readBody {body : Read} {succ : Bool} (hs : readBody l body = some (l', succ)) :
    Kept l l' := by
  obtain ⟨b, -, ⟨bs, rest, hwire, -, -, rfl⟩ | ⟨-, rfl⟩ | ⟨-, rfl, -⟩⟩ := readBody_cases hs
  · refine ⟨rfl, rfl, rfl, ?_⟩
    rw [written, written, hwire]
    exact List.append_assoc ..
  · exact ⟨rfl, rfl, rfl, rfl⟩
  · exact ⟨rfl, rfl, rfl, rfl⟩

theorem kept_readSize {junk : ℤ → UInt8} {body : Read} {bs : List UInt8} {succ : Bool}
    (hs : readSize l junk body bs = some (l', succ)) : Kept l l' := by
  unfold readSize at hs
  split at hs
  · dsimp only at hs
    split at hs
    · cases hs
      exact ⟨rfl, rfl, rfl, rfl⟩
    · split at hs
      · cases hs
        exact ⟨rfl, rfl, rfl, rfl⟩
      · have hrest := kept_readBody hs
        exact ⟨hrest.wpdu, hrest.wdead, hrest.sent, hrest.written⟩
  · cases hs
    exact ⟨rfl, rfl, rfl, rfl⟩

/-- Reading does not touch what is being written. -/
theorem kept_readpdu {junk : ℤ → UInt8} {len body : Read} {succ : Bool}
    (hs : readpdu l junk len body = some (l', succ)) : Kept l l' := by
  unfold readpdu at hs
  split at hs
  · cases len with
    | chunk n =>
      obtain ⟨⟨l₁, bs⟩, htake, hs⟩ := Option.bind_eq_some_iff.mp hs
      exact (kept_take htake).trans (kept_readSize hs)
    | eof stale | eagain | error =>
      cases hs
      exact ⟨rfl, rfl, rfl, rfl⟩
  · exact kept_readBody hs

theorem kept_offer (l : Link) (accept : Bool) : Kept l (offer l accept) := by
  unfold offer
  split
  · split
    · exact ⟨rfl, rfl, rfl, rfl⟩
    · exact ⟨rfl, rfl, rfl, rfl⟩
  · exact ⟨rfl, rfl, rfl, rfl⟩

/-- **The other end reads**, and takes nothing from this end but bytes of the stream. -/
theorem kept_read_cb {junk : ℤ → UInt8} {len body : Read} {accept : Bool}
    (hs : Connection.read_cb l junk len body accept = some l') : Kept l l' := by
  unfold Connection.read_cb at hs
  split at hs
  · cases hs
    exact ⟨rfl, rfl, rfl, rfl⟩
  · obtain ⟨⟨l₁, succ⟩, hread, rfl⟩ := Option.map_eq_some_iff.mp hs
    have hl₁ : Kept l l₁ := by
      split at hread
      · exact kept_readpdu hread
      · cases hread
        exact ⟨rfl, rfl, rfl, rfl⟩
    dsimp only
    split
    · exact hl₁
    · refine hl₁.trans (Kept.trans ?_ (kept_offer _ accept))
      split
      · exact ⟨rfl, rfl, rfl, rfl⟩
      · exact ⟨rfl, rfl, rfl, rfl⟩

end Stream

end Yfs.Senders
