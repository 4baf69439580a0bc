/-
The stubs of an RPC (`rpc/rpc.h`): `rpcc::call` and `call_m` at the client, and the handler
that `rpcs::reg` makes of a method at the server.

The templates of the source, one for each number of arguments, marshal the arguments one
after the other, and the handler reads them one after the other and asks whether that was
all. Here the arguments are a list of values, and the types a method has registered with
are part of the method. The types of a call are not checked against them anywhere: what the
handler reads is what the bytes say.

A PDU goes out with its size in the first four bytes, so the buffer of the receiver is the
sender's buffer, stamped.
-/
import Yfs.Connection
import Yfs.RpcDispatch
import Yfs.WireRoundTrip

set_option autoImplicit false

namespace Yfs.RpcStubs

open Bytes Yfs.Marshall Yfs.WireTypes Yfs.WireRoundTrip
open Yfs.Connection (Pdu stamp sizeBytes)
open Yfs.RpcDispatch (HandlerOut)

/-! ## The client -/

/-- The header as `pack_req_header` gets it. -/
def headerOf (h : RpcDispatch.req_header) : req_header :=
  ⟨.ofNat h.xid, .ofNat h.proc, .ofNat h.clt_nonce, .ofNat h.srv_nonce, .ofNat h.xid_rep⟩

/-- `call` up to the point where `call1` has packed the header: the PDU of the request. -/
def call (junk : ℤ → UInt8) (h : RpcDispatch.req_header) (vs : List Value) : Option Pdu := do
  let m ← putAll (.new junk) vs
  let m ← m.pack_req_header (headerOf h)
  some ⟨m.buf, m.ind⟩

/-- What the other end has in its buffer. -/
def received (p : Pdu) : Pdu := ⟨stamp p.buf p.sz, p.sz⟩

/-- `unmarshall::take_in`, by an object without a buffer. -/
def take_in (p : Pdu) : unmarshall :=
  { unmarshall.new p.buf p.sz with ind := RPC_HEADER_SZ, ok := decide (RPC_HEADER_SZ ≤ p.sz) }

/-- `call_m` after `call1`: the value it returns and the reply it sets, if it does; `none` when
the reply cannot be read and `VERIFY(0)` fails. `un` is the reply the call took in. -/
def call_m (R : Ty false) (intret : ℤ) (un : Option Pdu) : Option (ℤ × Option R.Val) :=
  if intret < 0 then some (intret, none)
  else
    match un with
    -- an `unmarshall` without a buffer is not `ok`
    | none => none
    | some p =>
      let (u, r) := R.get (take_in p)
      if u.okdone then some (intret, some r) else none

/-! ## The server -/

deriving instance DecidableEq for Ty

/-- Values of these types, one after the other. -/
def Args (ts : List (Ty false)) : Type := { vs : List Value // vs.map Sigma.fst = ts }

theorem getAll_types (ts : List (Ty false)) (u : unmarshall) :
    (getAll ts u).2.map Sigma.fst = ts := by
  induction ts generalizing u with
  | nil => rfl
  | cons t ts ih =>
    show t :: (getAll ts (t.get u).1).2.map Sigma.fst = t :: ts
    rw [ih]

/-- `args >> a1; args >> a2; …`. -/
def getArgs (ts : List (Ty false)) (u : unmarshall) : unmarshall × Args ts :=
  ((getAll ts u).1, ⟨(getAll ts u).2, getAll_types ts u⟩)

/-- A method of an object with state `S`, with the types it is registered with. -/
structure method (S : Type) where
  args : List (Ty false)
  R : Ty false
  meth : S → Args args → Int32 × R.Val × S

variable {S : Type}

/-- `fn` of the handler that `reg` makes: the value, the reply and the object. -/
def method.fn (f : method S) (sob : S) (args : unmarshall) (ret : marshall) :
    Option (Int32 × marshall × S) :=
  let (args, as) := getArgs f.args args
  -- the method is not called, and nothing is marshalled
  if args.okdone = false then
    some (Int32.ofInt RpcDispatch.unmarshal_args_failure, ret, sob)
  else
    let (b, r, sob') := f.meth sob as
    (f.R.put ret r).map fun ret => (b, ret, sob')

/-- The branch of `dispatch` for a new request; `p` is what was received. The caller looks
at the sign of the value. -/
def dispatch_new (f : method S) (sob : S) (junk : ℤ → UInt8) (p : Pdu) :
    Option (HandlerOut Pdu × S) := do
  let (req, h) := unmarshall.unpack_req_header (.new p.buf p.sz)
  let (b, rep, sob') ← f.fn sob req (.new junk)
  let rep ← rep.pack_reply_header ⟨h.xid, b⟩
  some (⟨b.toInt, ⟨rep.buf, rep.ind⟩, rep.ind⟩, sob')

/-! ## The round trip -/

/-- What fits into a buffer. -/
def Fits (vs : List Value) : Prop := RPC_HEADER_SZ + (encodeAll vs).length < 2 ^ 30

instance (vs : List Value) : Decidable (Fits vs) := inferInstanceAs (Decidable (_ < _))

theorem call_eq_send (junk : ℤ → UInt8) (h : RpcDispatch.req_header) (vs : List Value) :
    call junk h vs = (send junk false (.req (headerOf h)) vs).map fun m => ⟨m.buf, m.ind⟩ := by
  simp only [call, send, pack, Bool.false_eq_true, if_false, Option.bind_eq_bind]
  cases putAll (.new junk) vs with
  | none => rfl
  | some m =>
    simp only [Option.bind_some]
    cases m.pack_req_header (headerOf h) with
    | none => rfl
    | some m' => rfl

/-- The stamp is in front of everything that is read. -/
theorem laid_stamp {b : ℤ → UInt8} {sz : ℤ} {h : Header} {vs : List Value} (hb : Laid b h vs) :
    Laid (stamp b sz) h vs := by
  have hlen : ((sizeBytes sz).length : ℤ) = 4 := rfl
  have h4 : sizeof_rpc_sz_t = 4 := rfl
  have h24 : RPC_HEADER_SZ = 24 := rfl
  refine ⟨?_, ?_⟩
  · rw [stamp, slice_write_of_disjoint (.inr (by omega)), hb.header]
  · rw [stamp, slice_write_of_disjoint (.inr (by omega)), hb.values]

/-- **A request can be read back** by whoever knows the types. -/
theorem call_received {junk : ℤ → UInt8} {h : RpcDispatch.req_header} {vs : List Value} {p : Pdu}
    (hfits : Fits vs) (hp : call junk h vs = some p) :
    ∃ u, receive .req (vs.map Sigma.fst) (received p).buf (received p).sz
        = (u, .req (headerOf h), vs) ∧ u.okdone = true := by
  obtain ⟨m, hsend, hind, hlaid⟩ := send_laid junk false (.req (headerOf h)) vs hfits
  rw [call_eq_send, hsend] at hp
  cases hp
  show ∃ u, receive .req _ (stamp m.buf m.ind) m.ind = _ ∧ _
  rw [hind]
  exact receive_laid (laid_stamp hlaid) hfits

/-- A reply can be read back. -/
theorem reply_received {b : ℤ → UInt8} {R : Ty false} {r : R.Val} {h : Header} {ret : ℤ}
    (hlaid : Laid b h [⟨R, r⟩]) (hfits : Fits [⟨R, r⟩]) (hret : 0 ≤ ret) :
    call_m R ret (some (received ⟨b, RPC_HEADER_SZ + (encodeAll [⟨R, r⟩]).length⟩))
      = some (ret, some r) := by
  have henc : encodeAll [⟨R, r⟩] = R.encode r := List.flatMap_singleton ..
  have h24 : RPC_HEADER_SZ = 24 := rfl
  unfold Fits at hfits
  rw [henc] at hfits ⊢
  generalize hsz : RPC_HEADER_SZ + ((R.encode r).length : ℤ) = sz at *
  have hbytes : slice (stamp b sz) RPC_HEADER_SZ (encodeAll [⟨R, r⟩]).length = encodeAll [⟨R, r⟩] :=
    (laid_stamp hlaid).values
  rw [henc] at hbytes
  have hholds : Holds (take_in (received ⟨b, sz⟩)) (R.encode r) := by
    refine ⟨decide_eq_true ?_, ?_, ?_, ?_, hbytes⟩
    · show RPC_HEADER_SZ ≤ sz
      omega
    · show 0 ≤ RPC_HEADER_SZ
      omega
    · show RPC_HEADER_SZ + _ ≤ sz
      omega
    · show sz < _
      omega
  obtain ⟨u, hget, hu⟩ := R.gets _ r hholds
  have hok : u.okdone = true := by
    rw [unmarshall.okdone, hu.ok, hholds.ok, hu.ind, hu.sz]
    exact decide_eq_true hsz
  rw [call_m, if_neg (by omega)]
  simp only [hget, hok, if_true]

/-- **A remote call is a local call.** The handler gets the values that the caller passed,
and the caller gets the value and the reply of the method. -/
theorem dispatch_new_call {f : method S} {as : Args f.args} {junk : ℤ → UInt8}
    {h : RpcDispatch.req_header} {p : Pdu} (hfits : Fits as.1) (hp : call junk h as.1 = some p)
    (sob : S) (hreply : Fits [⟨f.R, (f.meth sob as).2.1⟩]) (junk' : ℤ → UInt8) :
    ∃ rep, dispatch_new f sob junk' (received p)
        = some (⟨(f.meth sob as).1.toInt, rep, rep.sz⟩, (f.meth sob as).2.2)
      ∧ (0 ≤ (f.meth sob as).1.toInt →
        call_m f.R (f.meth sob as).1.toInt (some (received rep))
          = some ((f.meth sob as).1.toInt, some (f.meth sob as).2.1)) := by
  obtain ⟨u, hreceive, hdone⟩ := call_received hfits hp
  rw [as.2] at hreceive
  generalize received p = q at hreceive ⊢
  generalize hreq : unmarshall.unpack_req_header (.new q.buf q.sz) = req
  simp only [receive, unpack, hreq, Prod.mk.injEq] at hreceive
  obtain ⟨hu, -, hvs⟩ := hreceive
  have hargs : getArgs f.args req.1 = (u, as) := Prod.ext hu (Subtype.ext hvs)
  generalize hout : f.meth sob as = out at *
  obtain ⟨m, hsend, hind, hlaid⟩ :=
    send_laid junk' false (.reply ⟨req.2.xid, out.1⟩) [⟨f.R, out.2.1⟩] hreply
  refine ⟨⟨m.buf, m.ind⟩, ?_, fun hret => ?_⟩
  · simp only [send, pack, Bool.false_eq_true, if_false, Option.bind_eq_bind, putAll,
      List.foldlM_cons, List.foldlM_nil, Option.bind_eq_some_iff] at hsend
    obtain ⟨m', ⟨m'', hput, hm'⟩, hpack⟩ := hsend
    cases hm'
    simp only [dispatch_new, hreq, method.fn, hargs, hdone, hout, hput, hpack, Bool.true_eq_false,
      if_false, Option.map_some, Option.bind_eq_bind, Option.bind_some]
  · rw [hind]
    exact reply_received hlaid hreply hret

end Yfs.RpcStubs
