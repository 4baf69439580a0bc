/-
What is marshalled is unmarshalled.

A message is a header, of a request or of a reply, and a sequence of values of any types.
The values go behind the room that the constructor of `marshall` leaves for the header; the
header is packed into that room, before the values are marshalled or after. The channel
fills in the first four bytes later, so the receiver's buffer agrees with the sender's
only from there on.
-/
import Yfs.WireTypes

set_option autoImplicit false

namespace Yfs.WireRoundTrip

open Bytes Yfs.Marshall Yfs.WireTypes

/-! ## Messages -/

/-- A value, with its type. -/
abbrev Value := (t : Ty false) × t.Val

def putAll (m : marshall) (vs : List Value) : Option marshall :=
  vs.foldlM (fun m v => v.1.put m v.2) m

def getAll : List (Ty false) → unmarshall → unmarshall × List Value
  | [], u => (u, [])
  | t :: ts, u =>
    let (u, x) := t.get u
    let (u, vs) := getAll ts u
    (u, ⟨t, x⟩ :: vs)

def encodeAll (vs : List Value) : List UInt8 := vs.flatMap fun v => v.1.encode v.2

inductive Kind where
  | req | reply
  deriving DecidableEq, Repr

inductive Header where
  | req (h : req_header)
  | reply (h : reply_header)
  deriving DecidableEq, Repr

def Header.kind : Header → Kind
  | .req _ => .req
  | .reply _ => .reply

def Header.encode : Header → List UInt8
  | .req h => encReqHeader h
  | .reply h => encReplyHeader h

def pack (m : marshall) : Header → Option marshall
  | .req h => m.pack_req_header h
  | .reply h => m.pack_reply_header h

def unpack (u : unmarshall) : Kind → unmarshall × Header
  | .req =>
    let (u, h) := u.unpack_req_header
    (u, .req h)
  | .reply =>
    let (u, h) := u.unpack_reply_header
    (u, .reply h)

/-- A message is put together, the header before the values or after. -/
def send (junk : ℤ → UInt8) (before : Bool) (h : Header) (vs : List Value) : Option marshall :=
  if before then do
    let m ← pack (.new junk) h
    putAll m vs
  else do
    let m ← putAll (.new junk) vs
    pack m h

/-- A message is taken apart. -/
def receive (k : Kind) (ts : List (Ty false)) (b : ℤ → UInt8) (sz : ℤ) :
    unmarshall × Header × List Value :=
  let (u, h) := unpack (.new b sz) k
  let (u, vs) := getAll ts u
  (u, h, vs)

/-! ## The sender -/

theorem putAll_puts : Puts putAll encodeAll :=
  foldlM_puts fun m v => v.1.puts m v.2

theorem length_encode_le (h : Header) :
    (h.encode.length : ℤ) ≤ RPC_HEADER_SZ - sizeof_rpc_sz_t := by
  cases h with
  | req h => exact Int.le_refl 20
  | reply h => exact show (8 : ℤ) ≤ 20 by omega

theorem pack_packed {m : marshall} (h : Header) (hcapa : RPC_HEADER_SZ ≤ m.capa) :
    ∃ m', pack m h = some m' ∧ Packed m h.encode m' := by
  cases h with
  | req h => exact pack_req_header_packed h hcapa
  | reply h => exact pack_reply_header_packed h hcapa

/-- The header and the values lie in the buffer where they belong. -/
structure Laid (b : ℤ → UInt8) (h : Header) (vs : List Value) : Prop where
  header : slice b sizeof_rpc_sz_t h.encode.length = h.encode
  values : slice b RPC_HEADER_SZ (encodeAll vs).length = encodeAll vs

/-- The two stretches are disjoint, so the order of the writes does not matter. -/
theorem laid_of_write (junk : ℤ → UInt8) (h : Header) (vs : List Value) :
    Laid (write (write junk sizeof_rpc_sz_t h.encode) RPC_HEADER_SZ (encodeAll vs)) h vs
      ∧ Laid (write (write junk RPC_HEADER_SZ (encodeAll vs)) sizeof_rpc_sz_t h.encode) h vs := by
  have hle := length_encode_le h
  refine ⟨⟨?_, slice_write ..⟩, ⟨slice_write .., ?_⟩⟩
  · rw [slice_write_of_disjoint (.inl (by omega)), slice_write]
  · rw [slice_write_of_disjoint (.inr (by omega)), slice_write]

theorem room_new (junk : ℤ → UInt8) : (marshall.new junk).Room :=
  ⟨show (0 : ℤ) ≤ 24 by omega, show (24 : ℤ) ≤ 1024 by omega, show (0 : ℤ) < 1024 by omega⟩

theorem send_laid (junk : ℤ → UInt8) (before : Bool) (h : Header) (vs : List Value)
    (hlen : RPC_HEADER_SZ + (encodeAll vs).length < 2 ^ 30) :
    ∃ m, send junk before h vs = some m ∧ m.ind = RPC_HEADER_SZ + (encodeAll vs).length
      ∧ Laid m.buf h vs := by
  have hcapa : RPC_HEADER_SZ ≤ (marshall.new junk).capa := show (24 : ℤ) ≤ 1024 by omega
  obtain ⟨hlaid, hlaid'⟩ := laid_of_write junk h vs
  cases before with
  | true =>
    obtain ⟨m, hpack, hm⟩ := pack_packed h hcapa
    have hind : m.ind = RPC_HEADER_SZ := hm.ind
    have hroom : m.Room := by
      have hroom := room_new junk
      refine ⟨hm.ind ▸ hroom.nonneg, ?_, Int.lt_of_lt_of_le hroom.pos hm.capa⟩
      rw [hm.ind]
      exact Int.le_trans hroom.le hm.capa
    obtain ⟨m', hput, happ⟩ := putAll_puts m vs hroom (by rw [hind]; exact hlen)
    refine ⟨m', ?_, by rw [happ.ind, hind], ?_⟩
    · simp only [send, if_true, hpack, Option.bind_eq_bind, Option.bind_some, hput]
    · rw [happ.buf, hind, hm.buf]
      exact hlaid
  | false =>
    obtain ⟨m, hput, happ⟩ := putAll_puts (.new junk) vs (room_new junk) hlen
    obtain ⟨m', hpack, hm'⟩ := pack_packed h (Int.le_trans hcapa happ.capa)
    refine ⟨m', ?_, by rw [hm'.ind, happ.ind]; rfl, ?_⟩
    · simp only [send, Bool.false_eq_true, if_false, hput, Option.bind_eq_bind,
        Option.bind_some, hpack]
    · rw [hm'.buf, happ.buf]
      exact hlaid'

/-! ## The receiver -/

theorem getAll_gets {u : unmarshall} {vs : List Value} (hu : Holds u (encodeAll vs)) :
    ∃ u', getAll (vs.map Sigma.fst) u = (u', vs) ∧ Consumed u (encodeAll vs).length u' := by
  induction vs generalizing u with
  | nil => exact ⟨u, rfl, .refl u⟩
  | cons v vs ih =>
    rw [encodeAll, List.flatMap_cons] at hu
    obtain ⟨u', hget, hu'⟩ := v.1.gets u v.2 hu.left
    obtain ⟨u'', hall, hu''⟩ := ih (hu.right hu')
    refine ⟨u'', ?_, ?_⟩
    · simp only [List.map_cons, getAll, hget, hall]
    · rw [encodeAll, List.flatMap_cons, List.length_append]
      exact hu'.trans hu''

theorem unpack_holds {u : unmarshall} {h : Header}
    (hu : Holds { u with ind := sizeof_rpc_sz_t } h.encode) :
    ∃ u', unpack u h.kind = (u', h)
      ∧ u'.buf = u.buf ∧ u'.sz = u.sz ∧ u'.ok = u.ok ∧ u'.ind = RPC_HEADER_SZ := by
  cases h with
  | req h =>
    obtain ⟨u', hget, hu'⟩ := unpack_req_header_holds hu
    exact ⟨u', by simp only [Header.kind, unpack, hget], hu'⟩
  | reply h =>
    obtain ⟨u', hget, hu'⟩ := unpack_reply_header_holds hu
    exact ⟨u', by simp only [Header.kind, unpack, hget], hu'⟩

theorem receive_laid {b : ℤ → UInt8} {h : Header} {vs : List Value} (hb : Laid b h vs)
    (hlen : RPC_HEADER_SZ + (encodeAll vs).length < 2 ^ 30) :
    ∃ u, receive h.kind (vs.map Sigma.fst) b (RPC_HEADER_SZ + (encodeAll vs).length) = (u, h, vs)
      ∧ u.okdone = true := by
  have hle := length_encode_le h
  have hsz : RPC_HEADER_SZ = 24 := rfl
  have h4 : sizeof_rpc_sz_t = 4 := rfl
  have hhead : Holds { unmarshall.new b (RPC_HEADER_SZ + (encodeAll vs).length) with
      ind := sizeof_rpc_sz_t } h.encode := by
    refine ⟨rfl, show (0 : ℤ) ≤ 4 by omega, ?_, ?_, hb.header⟩
    · show sizeof_rpc_sz_t + _ ≤ RPC_HEADER_SZ + _
      omega
    · show RPC_HEADER_SZ + _ < _
      omega
  obtain ⟨u, hunpack, hbuf, husz, hok, hind⟩ := unpack_holds hhead
  have hvalues : Holds u (encodeAll vs) := by
    refine ⟨hok, by omega, ?_, ?_, ?_⟩
    · rw [hind, husz]
      exact Int.le_refl _
    · rw [husz]
      show RPC_HEADER_SZ + _ < _
      omega
    · rw [hbuf, hind]
      exact hb.values
  obtain ⟨u', hall, hu'⟩ := getAll_gets hvalues
  refine ⟨u', ?_, ?_⟩
  · simp only [receive, hunpack, hall]
  · rw [unmarshall.okdone, hu'.ok, hok, hu'.ind, hu'.sz, hind, husz]
    exact decide_eq_true rfl

/-! ## Round trip -/

/-- **The wire format round-trips.** Whatever the header and the values, in which order they
are put together and what the fresh memory holds: the receiver reads back the header and the
values, and nothing is left over. `b` is the buffer of the receiver. -/
theorem wire_round_trip (junk : ℤ → UInt8) (before : Bool) (h : Header) (vs : List Value)
    (hlen : RPC_HEADER_SZ + (encodeAll vs).length < 2 ^ 30) :
    ∃ m, send junk before h vs = some m ∧ m.ind = RPC_HEADER_SZ + (encodeAll vs).length
      ∧ ∀ b : ℤ → UInt8, (∀ i, sizeof_rpc_sz_t ≤ i → i < m.ind → b i = m.buf i) →
        ∃ u, receive h.kind (vs.map Sigma.fst) b m.ind = (u, h, vs) ∧ u.okdone = true := by
  obtain ⟨m, hsend, hind, hlaid⟩ := send_laid junk before h vs hlen
  refine ⟨m, hsend, hind, fun b hb => ?_⟩
  have hle := length_encode_le h
  have hlaid' : Laid b h vs := by
    refine ⟨?_, ?_⟩
    · rw [← hlaid.header, length_slice]
      exact slice_congr fun i h4 hi => hb i h4 (by omega)
    · rw [← hlaid.values, length_slice]
      refine slice_congr fun i h24 hi => hb i ?_ (by omega)
      exact Int.le_trans (show (4 : ℤ) ≤ 24 by omega) h24
  rw [hind]
  exact receive_laid hlaid' hlen

/-- A map with these entries. -/
def mapOf (k : Ty true) (t : Ty false) (entries : List (k.Val × t.Val)) : (Ty.map k t).Val :=
  letI := k.sem.order rfl
  entries.foldl (fun d p => d.insert p.1 p.2) SortedMap.empty

/-- The values of `testmarshall`, and a map of vectors. -/
def sample : List Value :=
  [⟨.int, (12345 : Int32)⟩, ⟨.ulonglong, (1223344455 : UInt64)⟩,
    ⟨.string, [0x68, 0x61, 0x6c, 0x6c, 0x6f]⟩,
    ⟨.map .char (.vector .bool),
      mapOf .char (.vector .bool) [((7 : Int8), []), ((-1 : Int8), [true])]⟩]

theorem wire_round_trip_sample :
    ∃ m, send (fun _ => 0xcc) true (.req ⟨1, 2, 3, 4, 5⟩) sample = some m
      ∧ ∃ u, receive .req (sample.map Sigma.fst) m.buf m.ind
          = (u, .req ⟨1, 2, 3, 4, 5⟩, sample) ∧ u.okdone = true := by
  have hlen : (encodeAll sample).length = 36 := by decide
  obtain ⟨m, hsend, -, hreceive⟩ := wire_round_trip (fun _ => 0xcc) true (.req ⟨1, 2, 3, 4, 5⟩)
    sample (by rw [hlen]; exact show (24 : ℤ) + 36 < 2 ^ 30 by omega)
  exact ⟨m, hsend, hreceive m.buf fun _ _ _ => rfl⟩

end Yfs.WireRoundTrip
