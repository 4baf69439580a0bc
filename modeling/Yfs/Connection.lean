/-
One direction of a connection: the PDUs that one end sends and the other end receives.

The sender's `writepdu` stamps the size of a PDU into its first four bytes and hands the
PDU to `write()`, as often as it takes. The receiver's `readpdu` reads the size first, and
then the rest as it comes; a PDU that is complete is offered to `got_pdu` until it is
accepted. Between them is a stream of bytes. How many bytes a `write()` takes and a `read()`
gives, and when either has nothing to do or fails, is part of the action, so a run is any
way this can happen.

The other direction of the same connection can only make an end close. After `read()` has
returned 0 the value of `errno` is the one of some earlier call.
-/
import Yfs.Marshall
import Yfs.Steps

set_option autoImplicit false

namespace Yfs.Connection

open Bytes Yfs.Marshall

/-! ## Both ends -/

structure charbuf where
  buf : Option (ℤ → UInt8)
  sz : ℤ
  solong : ℤ

def charbuf.empty : charbuf := ⟨none, 0, 0⟩

/-- The arguments of `send`. -/
structure Pdu where
  buf : ℤ → UInt8
  sz : ℤ

structure Link where
  wpdu : charbuf
  /-- `dead_` of the sender. -/
  wdead : Bool
  /-- What was written and not read. -/
  wire : List UInt8
  /-- Everything that was read. -/
  delivered : List UInt8
  rpdu : charbuf
  /-- `dead_` of the receiver. -/
  rdead : Bool
  /-- A `VERIFY` of the receiver has failed. -/
  aborted : Bool
  /-- The PDUs that were sent. -/
  sent : List Pdu
  /-- The PDUs that `got_pdu` has accepted. -/
  accepted : List (List UInt8)

def start : Link := ⟨.empty, false, [], [], .empty, false, false, [], []⟩

/-! ## The sender -/

/-- What `write()` does. -/
inductive Write where
  | accept (n : ℕ)
  | eagain
  | error
  deriving DecidableEq, Repr

/-- `htonl`, as bytes in memory: the network order of the size. -/
def sizeBytes (sz : ℤ) : List UInt8 := be32 (.ofNat (toUnsigned sz).toNat)

def stamp (b : ℤ → UInt8) (sz : ℤ) : ℤ → UInt8 := write b 0 (sizeBytes sz)

/-- The second component is what `writepdu` returns. -/
def writepdu (l : Link) (w : Write) : Option (Link × Bool) :=
  if l.wpdu.solong = l.wpdu.sz then some (l, true)
  else l.wpdu.buf.bind fun b =>
    let b := if l.wpdu.solong = 0 then stamp b l.wpdu.sz else b
    match w with
    | .accept n =>
      if n ≤ l.wpdu.sz - l.wpdu.solong then
        some ({ l with
          wpdu := ⟨some b, l.wpdu.sz, l.wpdu.solong + n⟩
          wire := l.wire ++ slice b l.wpdu.solong n }, true)
      else none
    | .eagain => some ({ l with wpdu := ⟨some b, l.wpdu.sz, l.wpdu.solong⟩ }, true)
    | .error => some ({ l with wpdu := ⟨some b, 0, -1⟩ }, false)

/-- `send` up to its wait for completion. It waits before while another PDU is being sent. -/
def send (l : Link) (p : Pdu) (w : Write) : Option Link :=
  if l.wdead then some l
  else if l.wpdu.buf.isSome then none
  else
    (writepdu { l with wpdu := ⟨some p.buf, p.sz, 0⟩, sent := l.sent ++ [p] } w).map fun r =>
      if r.2 = false then { r.1 with wdead := true, wpdu := .empty }
      else if r.1.wpdu.solong = r.1.wpdu.sz then { r.1 with wpdu := .empty }
      else r.1

/-- There are no callbacks once the connection is dead. -/
def write_cb (l : Link) (w : Write) : Option Link :=
  if l.wdead then none
  else if l.wpdu.sz = 0 then some l
  else (writepdu l w).map fun r => if r.2 = false then { r.1 with wdead := true } else r.1

/-- `send` ends its wait for completion, and returns. -/
def wake (l : Link) : Option Link :=
  if l.wpdu.buf.isSome ∧ (l.wdead = true ∨ ¬ (0 ≤ l.wpdu.solong ∧ l.wpdu.solong < l.wpdu.sz)) then
    some { l with wpdu := .empty }
  else none

/-! ## The receiver -/

/-- What `read()` does. -/
inductive Read where
  | chunk (n : ℕ)
  /-- The end of the stream; `stale` says that `errno` still is `EAGAIN`. -/
  | eof (stale : Bool)
  | eagain
  | error
  deriving DecidableEq, Repr

/-- `n` bytes of at most `count`. -/
def take (l : Link) (count : ℤ) (n : ℕ) : Option (Link × List UInt8) :=
  if 0 < n ∧ (n : ℤ) ≤ count ∧ n ≤ l.wire.length then
    some ({ l with wire := l.wire.drop n, delivered := l.delivered ++ l.wire.take n },
      l.wire.take n)
  else none

/-- The second half of `readpdu`. -/
def readBody (l : Link) (body : Read) : Option (Link × Bool) :=
  l.rpdu.buf.bind fun b =>
    match body with
    | .chunk n => (take l (l.rpdu.sz - l.rpdu.solong) n).map fun r =>
      ({ r.1 with rpdu := ⟨some (write b l.rpdu.solong r.2), l.rpdu.sz, l.rpdu.solong + n⟩ },
        true)
    | .eof true => some (l, true)
    | .eagain => some (l, true)
    | .eof false => some ({ l with rpdu := .empty }, false)
    | .error => some ({ l with rpdu := .empty }, false)

/-- The size was read; `junk` is what `malloc` returns. -/
def readSize (l : Link) (junk : ℤ → UInt8) (body : Read) : List UInt8 → Option (Link × Bool)
  | [a, b, c, d] =>
    let sz := toInt (ofBe32 a b c d).toNat
    if sz > MAX_PDU then some (l, false)
    else if l.rpdu.buf.isSome then some ({ l with aborted := true }, false)
    else readBody { l with rpdu := ⟨some (write junk 0 [a, b, c, d]), sz, 4⟩ } body
  -- a short read
  | _ => some (l, false)

/-- There are two calls of `read()`, the first one only between PDUs. -/
def readpdu (l : Link) (junk : ℤ → UInt8) (len body : Read) : Option (Link × Bool) :=
  if l.rpdu.sz = 0 then
    match len with
    | .chunk n => (take l 4 n).bind fun r => readSize r.1 junk body r.2
    | .eof _ => some (l, false)
    | .eagain => some ({ l with aborted := true }, false)
    | .error => some (l, false)
  else readBody l body

/-- `accept` is the answer of `got_pdu`, if it is asked. -/
def offer (l : Link) (accept : Bool) : Link :=
  match l.rpdu.buf with
  | some b =>
    if l.rpdu.sz = l.rpdu.solong ∧ accept = true then
      { l with rpdu := .empty, accepted := l.accepted ++ [slice b 0 l.rpdu.sz.toNat] }
    else l
  | none => l

def read_cb (l : Link) (junk : ℤ → UInt8) (len body : Read) (accept : Bool) : Option Link :=
  if l.rdead then some l
  else
    (if l.rpdu.buf.isNone ∨ l.rpdu.solong < l.rpdu.sz then readpdu l junk len body
      else some (l, true)).map fun r =>
        if r.1.aborted then r.1
        else offer (if r.2 = false then { r.1 with rdead := true } else r.1) accept

/-! ## Runs -/

inductive Act where
  | send (p : Pdu) (w : Write)
  | write_cb (w : Write)
  | wake
  | read_cb (junk : ℤ → UInt8) (len body : Read) (accept : Bool)
  | closeSender
  | closeReceiver

def step (l : Link) : Act → Option Link
  | .send p w => send l p w
  | .write_cb w => write_cb l w
  | .wake => wake l
  | .read_cb junk len body accept => if l.aborted then none else read_cb l junk len body accept
  | .closeSender => some { l with wdead := true }
  | .closeReceiver => some { l with rdead := true }

end Yfs.Connection
