/-
The classes `marshall` and `unmarshall` of the RPC library, and the operators for the
built-in types.

A `marshall` object owns a buffer that it enlarges when needed; an `unmarshall` object
walks over a buffer it was given. The contents of fresh memory are unknown, and so are
the bytes around a buffer. An `int` of the source is an integer here. Where the result of
its arithmetic does not fit, the behaviour of the source is undefined, and so it is for a
store outside of the buffer: both are `none`. Conversions to `unsigned` and back are
written out.

Nothing stops a read outside of the buffer, so the reads are recorded: each stretch of the
buffer an `unmarshall` object has looked at, by its start and length.
-/
import Yfs.Bytes

set_option autoImplicit false

namespace Yfs.Marshall

open Bytes

/-! ## The integers of C -/

/-- The result of arithmetic in `int`. -/
def checked (x : ℤ) : Option ℤ := if -2 ^ 31 ≤ x ∧ x < 2 ^ 31 then some x else none

/-- Conversion to `unsigned`. -/
def toUnsigned (x : ℤ) : ℤ := x % 2 ^ 32

/-- Conversion to `int`. -/
def toInt (x : ℤ) : ℤ := Int.bmod x (2 ^ 32)

theorem checked_eq_some {x : ℤ} (h0 : 0 ≤ x) (h : x < 2 ^ 31) : checked x = some x :=
  if_pos ⟨by omega, h⟩

theorem toUnsigned_of_lt {x : ℤ} (h0 : 0 ≤ x) (h : x < 2 ^ 32) : toUnsigned x = x :=
  Int.emod_eq_of_lt h0 h

theorem toInt_of_lt {x : ℤ} (h0 : 0 ≤ x) (h : x < 2 ^ 31) : toInt x = x := by
  unfold toInt
  rw [Int.bmod_def]
  omega

/-! ## Headers -/

structure req_header where
  xid : Int32
  proc : Int32
  clt_nonce : UInt32
  srv_nonce : UInt32
  xid_rep : Int32
  deriving DecidableEq, Repr

structure reply_header where
  xid : Int32
  ret : Int32
  deriving DecidableEq, Repr

def DEFAULT_RPC_SZ : ℤ := 1024

/-- `sizeof(rpc_sz_t)`: room for the size of the PDU. -/
def sizeof_rpc_sz_t : ℤ := 4

/-- The larger of the sizes of the two headers, and the room before it. There is no checksum. -/
def RPC_HEADER_SZ : ℤ := max 20 8 + sizeof_rpc_sz_t

/-- The largest PDU a connection takes in. -/
def MAX_PDU : ℤ := 10 * 2 ^ 20

/-! ## `marshall` -/

structure marshall where
  buf : ℤ → UInt8
  capa : ℤ
  ind : ℤ

/-- The constructor; the memory that `malloc` returns holds anything. -/
def marshall.new (junk : ℤ → UInt8) : marshall := ⟨junk, DEFAULT_RPC_SZ, RPC_HEADER_SZ⟩

/-- Bytes are stored at `_ind`. -/
def marshall.store (m : marshall) (bs : List UInt8) : Option marshall :=
  if 0 ≤ m.ind ∧ m.ind + bs.length ≤ m.capa then
    some { m with buf := write m.buf m.ind bs, ind := m.ind + bs.length }
  else none

def marshall.rawbyte (m : marshall) (x : UInt8) : Option marshall := do
  let capa ← if m.ind ≥ m.capa then checked (m.capa * 2) else some m.capa
  marshall.store { m with capa } [x]

/-- A negative `n` is a huge one for `memcpy`. -/
def marshall.rawbytes (m : marshall) (p : List UInt8) (n : ℤ) : Option marshall := do
  let top ← checked (m.ind + n)
  let capa ← if top > m.capa then checked (if m.capa > n then 2 * m.capa else m.capa + n)
    else some m.capa
  if 0 ≤ n ∧ n ≤ p.length then marshall.store { m with capa } (p.take n.toNat) else none

def putBool (m : marshall) (x : Bool) : Option marshall := m.rawbyte x.toUInt8

def putUChar (m : marshall) (x : UInt8) : Option marshall := m.rawbyte x

def putChar (m : marshall) (x : Int8) : Option marshall := putUChar m x.toUInt8

def putUShort (m : marshall) (x : UInt16) : Option marshall := do
  let m ← m.rawbyte ((x >>> 8) &&& 0xff).toUInt8
  m.rawbyte (x &&& 0xff).toUInt8

def putShort (m : marshall) (x : Int16) : Option marshall := putUShort m x.toUInt16

def putUInt (m : marshall) (x : UInt32) : Option marshall := do
  let m ← m.rawbyte ((x >>> 24) &&& 0xff).toUInt8
  let m ← m.rawbyte ((x >>> 16) &&& 0xff).toUInt8
  let m ← m.rawbyte ((x >>> 8) &&& 0xff).toUInt8
  m.rawbyte (x &&& 0xff).toUInt8

def putInt (m : marshall) (x : Int32) : Option marshall := putUInt m x.toUInt32

def putString (m : marshall) (s : List UInt8) : Option marshall := do
  let m ← putUInt m (.ofNat s.length)
  m.rawbytes s (toInt s.length)

def putULongLong (m : marshall) (x : UInt64) : Option marshall := do
  let m ← putUInt m (x >>> 32).toUInt32
  putUInt m x.toUInt32

def marshall.pack (m : marshall) (x : Int32) : Option marshall := do
  let m ← m.rawbyte ((x >>> 24) &&& 0xff).toUInt32.toUInt8
  let m ← m.rawbyte ((x >>> 16) &&& 0xff).toUInt32.toUInt8
  let m ← m.rawbyte ((x >>> 8) &&& 0xff).toUInt32.toUInt8
  m.rawbyte (x &&& 0xff).toUInt32.toUInt8

/-- The first four bytes are left for the channel to fill in the size of the PDU. -/
def marshall.pack_req_header (m : marshall) (h : req_header) : Option marshall := do
  let saved_sz := m.ind
  let m := { m with ind := sizeof_rpc_sz_t }
  let m ← m.pack h.xid
  let m ← m.pack h.proc
  let m ← m.pack h.clt_nonce.toInt32
  let m ← m.pack h.srv_nonce.toInt32
  let m ← m.pack h.xid_rep
  some { m with ind := saved_sz }

def marshall.pack_reply_header (m : marshall) (h : reply_header) : Option marshall := do
  let saved_sz := m.ind
  let m := { m with ind := sizeof_rpc_sz_t }
  let m ← m.pack h.xid
  let m ← m.pack h.ret
  some { m with ind := saved_sz }

/-- What was marshalled, without the header. -/
def marshall.get_content (m : marshall) : List UInt8 :=
  slice m.buf RPC_HEADER_SZ (m.ind - RPC_HEADER_SZ).toNat

/-! ## `unmarshall` -/

structure unmarshall where
  buf : ℤ → UInt8
  sz : ℤ
  ind : ℤ
  ok : Bool
  /-- The stretches of the buffer that were read. -/
  reads : List (ℤ × ℕ)

/-- The constructor for a buffer and its size. -/
def unmarshall.new (b : ℤ → UInt8) (sz : ℤ) : unmarshall := ⟨b, sz, 0, true, []⟩

/-- `n` bytes at `_ind` are looked at. -/
def unmarshall.look (u : unmarshall) (n : ℕ) : unmarshall :=
  { u with reads := (u.ind, n) :: u.reads }

/-- A `char` is signed: as an `unsigned int` it is extended by its sign. -/
def unmarshall.rawbyte (u : unmarshall) : unmarshall × UInt32 :=
  if u.ind ≥ u.sz then ({ u with ok := false }, 0)
  else ({ u.look 1 with ind := u.ind + 1 }, (u.buf u.ind).toInt8.toInt32.toUInt32)

/-- The sum `_ind + n` is one of `unsigned`. -/
def unmarshall.rawbytes (u : unmarshall) (ss : List UInt8) (n : UInt32) :
    unmarshall × List UInt8 :=
  if toUnsigned (u.ind + n.toNat) > toUnsigned u.sz then ({ u with ok := false }, ss)
  else ({ u.look n.toNat with ind := toInt (u.ind + n.toNat) }, slice u.buf u.ind n.toNat)

def unmarshall.okdone (u : unmarshall) : Bool := u.ok && u.ind == u.sz

def getBool (u : unmarshall) : unmarshall × Bool :=
  let (u, b) := u.rawbyte
  (u, b != 0)

def getUChar (u : unmarshall) : unmarshall × UInt8 :=
  let (u, b) := u.rawbyte
  (u, b.toUInt8)

def getChar (u : unmarshall) : unmarshall × Int8 :=
  let (u, b) := u.rawbyte
  (u, b.toUInt8.toInt8)

def getUShort (u : unmarshall) : unmarshall × UInt16 :=
  let (u, b) := u.rawbyte
  let x := ((b &&& 0xff) <<< 8).toUInt16
  let (u, b) := u.rawbyte
  (u, (x.toUInt32 ||| (b &&& 0xff)).toUInt16)

/-- A `short` is extended by its sign before the bits of the second byte are set. -/
def getShort (u : unmarshall) : unmarshall × Int16 :=
  let (u, b) := u.rawbyte
  let x := ((b &&& 0xff) <<< 8).toUInt16.toInt16
  let (u, b) := u.rawbyte
  (u, (x.toInt32.toUInt32 ||| (b &&& 0xff)).toUInt16.toInt16)

def getUInt (u : unmarshall) : unmarshall × UInt32 :=
  let (u, b) := u.rawbyte
  let x := (b &&& 0xff) <<< 24
  let (u, b) := u.rawbyte
  let x := x ||| (b &&& 0xff) <<< 16
  let (u, b) := u.rawbyte
  let x := x ||| (b &&& 0xff) <<< 8
  let (u, b) := u.rawbyte
  (u, x ||| (b &&& 0xff))

def getInt (u : unmarshall) : unmarshall × Int32 :=
  let (u, b) := u.rawbyte
  let x := ((b &&& 0xff) <<< 24).toInt32
  let (u, b) := u.rawbyte
  let x := (x.toUInt32 ||| (b &&& 0xff) <<< 16).toInt32
  let (u, b) := u.rawbyte
  let x := (x.toUInt32 ||| (b &&& 0xff) <<< 8).toInt32
  let (u, b) := u.rawbyte
  (u, (x.toUInt32 ||| (b &&& 0xff)).toInt32)

def getULongLong (u : unmarshall) : unmarshall × UInt64 :=
  let (u, h) := getUInt u
  let (u, l) := getUInt u
  (u, l.toUInt64 ||| h.toUInt64 <<< 32)

/-- `s` is what the string was before: it stays when the length cannot be read. -/
def getString (u : unmarshall) (s : List UInt8) : unmarshall × List UInt8 :=
  let (u, sz) := getUInt u
  if u.ok then u.rawbytes s sz else (u, s)

/-- `unpack` reads an `int` as `operator>>` does. -/
def unmarshall.unpack (u : unmarshall) : unmarshall × Int32 := getInt u

def unmarshall.unpack_req_header (u : unmarshall) : unmarshall × req_header :=
  let u := { u with ind := sizeof_rpc_sz_t }
  let (u, xid) := u.unpack
  let (u, proc) := u.unpack
  let (u, clt_nonce) := u.unpack
  let (u, srv_nonce) := u.unpack
  let (u, xid_rep) := u.unpack
  ({ u with ind := RPC_HEADER_SZ }, ⟨xid, proc, clt_nonce.toUInt32, srv_nonce.toUInt32, xid_rep⟩)

def unmarshall.unpack_reply_header (u : unmarshall) : unmarshall × reply_header :=
  let u := { u with ind := sizeof_rpc_sz_t }
  let (u, xid) := u.unpack
  let (u, ret) := u.unpack
  ({ u with ind := RPC_HEADER_SZ }, ⟨xid, ret⟩)

/-! ## What is marshalled -/

/-- The head is inside of the buffer. -/
structure marshall.Room (m : marshall) : Prop where
  nonneg : 0 ≤ m.ind
  le : m.ind ≤ m.capa
  pos : 0 < m.capa

/-- `m'` is `m` with `bs` at its end. -/
structure Appended (m : marshall) (bs : List UInt8) (m' : marshall) : Prop where
  buf : m'.buf = write m.buf m.ind bs
  ind : m'.ind = m.ind + bs.length
  capa : m.capa ≤ m'.capa
  le : m'.ind ≤ m'.capa

variable {m m' m'' : marshall} {bs cs : List UInt8}

theorem Appended.nil (h : m.Room) : Appended m [] m where
  buf := (write_nil ..).symm
  ind := (Int.add_zero _).symm
  capa := Int.le_refl _
  le := h.le

theorem Appended.room (h : Appended m bs m') (hm : m.Room) : m'.Room where
  nonneg := by
    have hind := h.ind
    have hpos := hm.nonneg
    omega
  le := h.le
  pos := Int.lt_of_lt_of_le hm.pos h.capa

/-- What two writes append is appended by their sequence. -/
theorem Appended.append (h : Appended m bs m') (h' : Appended m' cs m'') :
    Appended m (bs ++ cs) m'' where
  buf := by rw [h'.buf, h.buf, h.ind, write_append]
  ind := by
    rw [h'.ind, h.ind, List.length_append]
    omega
  capa := Int.le_trans h.capa h'.capa
  le := h'.le

section Puts

variable {α β γ : Type} {put₁ : marshall → β → Option marshall}
  {put₂ : marshall → γ → Option marshall} {enc₁ : β → List UInt8} {enc₂ : γ → List UInt8}

/-- The operator appends the bytes `enc` of a value, as long as they end below `2^30`. -/
def Puts (put : marshall → α → Option marshall) (enc : α → List UInt8) : Prop :=
  ∀ (m : marshall) (x : α), m.Room → m.ind + (enc x).length < 2 ^ 30 →
    ∃ m', put m x = some m' ∧ Appended m (enc x) m'

/-- Two values one after the other. -/
theorem Puts.seq (h₁ : Puts put₁ enc₁) (h₂ : Puts put₂ enc₂) (f : α → β) (g : α → γ) :
    Puts (fun m x => do
      let m ← put₁ m (f x)
      put₂ m (g x)) fun x => enc₁ (f x) ++ enc₂ (g x) := by
  intro m x hm hlen
  rw [List.length_append] at hlen
  obtain ⟨m', hput, happ⟩ := h₁ m (f x) hm (by omega)
  have hind := happ.ind
  obtain ⟨m'', hput', happ'⟩ := h₂ m' (g x) (happ.room hm) (by omega)
  refine ⟨m'', ?_, happ.append happ'⟩
  simp only [hput, Option.bind_eq_bind, Option.bind_some, hput']

/-- The value is converted first. -/
theorem Puts.comp (h : Puts put₁ enc₁) (f : α → β) :
    Puts (fun m x => put₁ m (f x)) fun x => enc₁ (f x) :=
  fun m x => h m (f x)

theorem Puts.of_eq {put : marshall → β → Option marshall} (h : Puts put enc₁)
    (heq : ∀ m x, put₁ m x = put m x) : Puts put₁ enc₁ := by
  intro m x hm hlen
  rw [heq]
  exact h m x hm hlen

end Puts

/-- A store at the head, in a buffer that is large enough. -/
theorem store_appended (hm : 0 ≤ m.ind) {capa : ℤ} (hcapa : m.capa ≤ capa)
    (hle : m.ind + bs.length ≤ capa) :
    ∃ m', marshall.store { m with capa } bs = some m' ∧ Appended m bs m' :=
  ⟨_, if_pos ⟨hm, hle⟩, rfl, rfl, hcapa, hle⟩

/-- The buffer is doubled once the index has reached its end. -/
theorem rawbyte_puts : Puts marshall.rawbyte fun b => [b] := by
  intro m x hm hlen
  obtain ⟨h0, hle, hpos⟩ := hm
  rw [List.length_singleton] at hlen
  unfold marshall.rawbyte
  by_cases hfull : m.ind ≥ m.capa
  · -- the head is at the end, so twice the capacity is below `2^31`
    rw [if_pos hfull, checked_eq_some (by omega) (by omega)]
    exact store_appended h0 (by omega) (by rw [List.length_singleton]; omega)
  · rw [if_neg hfull]
    exact store_appended h0 (Int.le_refl _) (by rw [List.length_singleton]; omega)

theorem rawbytes_puts : Puts (fun m p => m.rawbytes p (toInt p.length)) fun p => p := by
  intro m p hm hlen
  obtain ⟨h0, hle, hpos⟩ := hm
  have hlen : m.ind + p.length < 2 ^ 30 := hlen
  have hn : toInt p.length = p.length := toInt_of_lt (by omega) (by omega)
  unfold marshall.rawbytes
  simp only [hn]
  rw [checked_eq_some (by omega) (by omega)]
  simp only [Option.bind_eq_bind, Option.bind_some, Int.toNat_natCast, List.take_length]
  by_cases hfull : m.ind + p.length > m.capa
  · rw [if_pos hfull]
    by_cases hbig : m.capa > p.length
    · rw [if_pos hbig, checked_eq_some (by omega) (by omega), Option.bind_some,
        if_pos ⟨by omega, Int.le_refl _⟩]
      exact store_appended h0 (by omega) (by omega)
    · rw [if_neg hbig, checked_eq_some (by omega) (by omega), Option.bind_some,
        if_pos ⟨by omega, Int.le_refl _⟩]
      exact store_appended h0 (by omega) (by omega)
  · rw [if_neg hfull, if_pos ⟨by omega, Int.le_refl _⟩]
    exact store_appended h0 (Int.le_refl _) (by omega)

/-! ## What is unmarshalled -/

/-- The bytes `bs` lie at the head. -/
structure Holds (u : unmarshall) (bs : List UInt8) : Prop where
  ok : u.ok = true
  nonneg : 0 ≤ u.ind
  le : u.ind + bs.length ≤ u.sz
  small : u.sz < 2 ^ 31
  bytes : slice u.buf u.ind bs.length = bs

/-- `u'` is `u` with the head `n` bytes further on. -/
structure Consumed (u : unmarshall) (n : ℕ) (u' : unmarshall) : Prop where
  buf : u'.buf = u.buf
  sz : u'.sz = u.sz
  ok : u'.ok = u.ok
  ind : u'.ind = u.ind + n

variable {u u' u'' : unmarshall}

theorem Consumed.refl (u : unmarshall) : Consumed u 0 u := ⟨rfl, rfl, rfl, (Int.add_zero _).symm⟩

/-- Two reads in a row consume what both consume. -/
theorem Consumed.trans {n n' : ℕ} (h : Consumed u n u') (h' : Consumed u' n' u'') :
    Consumed u (n + n') u'' where
  buf := h'.buf.trans h.buf
  sz := h'.sz.trans h.sz
  ok := h'.ok.trans h.ok
  ind := by
    rw [h'.ind, h.ind]
    omega

/-- The bytes at the head in two parts: the first, and the second when the first is read. -/
theorem Holds.left (h : Holds u (bs ++ cs)) : Holds u bs where
  ok := h.ok
  nonneg := h.nonneg
  le := by
    have hle := h.le
    rw [List.length_append] at hle
    omega
  small := h.small
  bytes := (eq_of_slice_eq_append h.bytes).1

/-- After a read of the first bytes the buffer holds the others. -/
theorem Holds.right (h : Holds u (bs ++ cs)) (hu : Consumed u bs.length u') : Holds u' cs where
  ok := hu.ok.trans h.ok
  nonneg := by
    rw [hu.ind]
    exact Int.add_nonneg h.nonneg (Int.natCast_nonneg _)
  le := by
    have hle := h.le
    rw [List.length_append] at hle
    rw [hu.ind, hu.sz]
    omega
  small := hu.sz ▸ h.small
  bytes := by
    rw [hu.buf, hu.ind]
    exact (eq_of_slice_eq_append h.bytes).2

section Gets

variable {α β γ : Type} {get₁ : unmarshall → unmarshall × β} {get₂ : unmarshall → unmarshall × γ}
  {enc₁ : β → List UInt8} {enc₂ : γ → List UInt8}

/-- The operator reads the value whose bytes lie at the head. -/
def Gets (get : unmarshall → unmarshall × α) (enc : α → List UInt8) : Prop :=
  ∀ (u : unmarshall) (x : α), Holds u (enc x) →
    ∃ u', get u = (u', x) ∧ Consumed u (enc x).length u'

/-- Two values one after the other, as the parts `f` and `g` of one. -/
theorem Gets.seq (h₁ : Gets get₁ enc₁) (h₂ : Gets get₂ enc₂) {k : β → γ → α} (f : α → β)
    (g : α → γ) (hk : ∀ x, k (f x) (g x) = x) :
    Gets (fun u =>
      let (u, a) := get₁ u
      let (u, b) := get₂ u
      (u, k a b)) fun x => enc₁ (f x) ++ enc₂ (g x) := by
  intro u x h
  obtain ⟨u', hget, hu'⟩ := h₁ u (f x) h.left
  obtain ⟨u'', hget', hu''⟩ := h₂ u' (g x) (h.right hu')
  refine ⟨u'', ?_, ?_⟩
  · simp only [hget, hget', hk]
  · rw [List.length_append]
    exact hu'.trans hu''

end Gets

theorem rawbyte_holds {b : UInt8} (h : Holds u (b :: bs)) :
    ∃ u', u.rawbyte = (u', b.toInt8.toInt32.toUInt32) ∧ Consumed u 1 u' ∧ Holds u' bs := by
  have hlt : ¬ u.ind ≥ u.sz := by
    have hle := h.le
    rw [List.length_cons] at hle
    omega
  have hb : u.buf u.ind = b := (eq_of_slice_eq_cons h.bytes).1
  have hu : Consumed u 1 { u.look 1 with ind := u.ind + 1 } := ⟨rfl, rfl, rfl, rfl⟩
  have hcons : Holds u ([b] ++ bs) := h
  refine ⟨_, ?_, hu, hcons.right hu⟩
  rw [unmarshall.rawbyte, if_neg hlt, hb]

/-- Reading as many bytes as the buffer holds returns them and consumes them. -/
theorem rawbytes_holds (h : Holds u bs) (s : List UInt8) :
    ∃ u', u.rawbytes s (.ofNat bs.length) = (u', bs) ∧ Consumed u bs.length u' := by
  have hle := h.le
  have hpos := h.nonneg
  have hsmall := h.small
  have hlt : bs.length < 2 ^ 32 := by omega
  have hlen : (UInt32.ofNat bs.length).toNat = bs.length := UInt32.toNat_ofNat_of_lt' hlt
  have hfits : ¬ toUnsigned (u.ind + bs.length) > toUnsigned u.sz := by
    rw [toUnsigned_of_lt (by omega) (by omega), toUnsigned_of_lt (by omega) (by omega)]
    omega
  refine ⟨{ u.look bs.length with ind := u.ind + bs.length }, ?_, rfl, rfl, rfl, rfl⟩
  rw [unmarshall.rawbytes, hlen, if_neg hfits, toInt_of_lt (by omega) (by omega), h.bytes]

/-! ## The built-in types -/

theorem putBool_puts : Puts putBool fun x => [x.toUInt8] := rawbyte_puts.comp Bool.toUInt8

theorem putUChar_puts : Puts putUChar fun x => [x] := rawbyte_puts

theorem putChar_puts : Puts putChar fun x => [x.toUInt8] := rawbyte_puts.comp Int8.toUInt8

theorem putUShort_puts : Puts putUShort be16 := by
  refine (rawbyte_puts.seq rawbyte_puts (fun x : UInt16 => (x >>> 8).toUInt8)
    fun x => x.toUInt8).of_eq fun m x => ?_
  simp only [putUShort, toUInt8_and16]

theorem putShort_puts : Puts putShort fun x => be16 x.toUInt16 := putUShort_puts.comp Int16.toUInt16

/-- Four bytes. -/
theorem rawbyte4_puts : Puts (fun m (b : UInt8 × UInt8 × UInt8 × UInt8) => do
    let m ← m.rawbyte b.1
    let m ← m.rawbyte b.2.1
    let m ← m.rawbyte b.2.2.1
    m.rawbyte b.2.2.2) fun b => [b.1, b.2.1, b.2.2.1, b.2.2.2] :=
  rawbyte_puts.seq (rawbyte_puts.seq (rawbyte_puts.seq rawbyte_puts Prod.fst Prod.snd)
    Prod.fst Prod.snd) Prod.fst Prod.snd

theorem putUInt_puts : Puts putUInt be32 := by
  refine (rawbyte4_puts.comp fun x : UInt32 =>
    ((x >>> 24).toUInt8, (x >>> 16).toUInt8, (x >>> 8).toUInt8, x.toUInt8)).of_eq fun m x => ?_
  simp only [putUInt, toUInt8_and32]

theorem putInt_puts : Puts putInt fun x => be32 x.toUInt32 := putUInt_puts.comp Int32.toUInt32

theorem pack_puts : Puts marshall.pack fun x => be32 x.toUInt32 := by
  refine (rawbyte4_puts.comp fun x : Int32 => ((x.toUInt32 >>> 24).toUInt8,
    (x.toUInt32 >>> 16).toUInt8, (x.toUInt32 >>> 8).toUInt8,
    x.toUInt32.toUInt8)).of_eq fun m x => ?_
  obtain ⟨h24, h16, h8, h0⟩ := toUInt8_shiftRight_and x
  simp only [marshall.pack, h24, h16, h8, h0]

/-- The length, and then the bytes. -/
def encString (s : List UInt8) : List UInt8 := be32 (.ofNat s.length) ++ s

theorem putString_puts : Puts putString encString :=
  putUInt_puts.seq rawbytes_puts (fun s : List UInt8 => UInt32.ofNat s.length) id

def encULongLong (x : UInt64) : List UInt8 := be32 (x >>> 32).toUInt32 ++ be32 x.toUInt32

theorem putULongLong_puts : Puts putULongLong encULongLong :=
  putUInt_puts.seq putUInt_puts (fun x : UInt64 => (x >>> 32).toUInt32) UInt64.toUInt32

theorem getBool_gets : Gets getBool fun x => [x.toUInt8] := by
  intro u x h
  obtain ⟨u', hget, hu', -⟩ := rawbyte_holds h
  refine ⟨u', ?_, hu'⟩
  simp only [getBool, hget]
  cases x <;> rfl

theorem getUChar_gets : Gets getUChar fun x => [x] := by
  intro u x h
  obtain ⟨u', hget, hu', -⟩ := rawbyte_holds h
  refine ⟨u', ?_, hu'⟩
  simp only [getUChar, hget, toUInt8_signExtend]

theorem getChar_gets : Gets getChar fun x => [x.toUInt8] := by
  intro u x h
  obtain ⟨u', hget, hu', -⟩ := rawbyte_holds h
  refine ⟨u', ?_, hu'⟩
  simp only [getChar, hget, toUInt8_signExtend]
  rfl

theorem getUShort_gets : Gets getUShort be16 := by
  intro u x h
  obtain ⟨u₁, hget₁, hu₁, h₁⟩ := rawbyte_holds h
  obtain ⟨u₂, hget₂, hu₂, -⟩ := rawbyte_holds h₁
  refine ⟨u₂, ?_, hu₁.trans hu₂⟩
  simp only [getUShort, hget₁, hget₂, signExtend_and, toUInt16_or]
  exact congrArg _ ((ofBe16_eq _ _).trans (ofBe16_be16 x))

/-- A `short` is read as an `unsigned short`. -/
theorem getShort_eq (u : unmarshall) :
    getShort u = ((getUShort u).1, (getUShort u).2.toInt16) := by
  simp only [getShort, getUShort, toUInt16_or, toUInt16_signExtend_or]

theorem getShort_gets : Gets getShort fun x => be16 x.toUInt16 := by
  intro u x h
  obtain ⟨u', hget, hu'⟩ := getUShort_gets u x.toUInt16 h
  refine ⟨u', ?_, hu'⟩
  rw [getShort_eq, hget]
  rfl

theorem getUInt_gets : Gets getUInt be32 := by
  intro u x h
  obtain ⟨u₁, hget₁, hu₁, h₁⟩ := rawbyte_holds h
  obtain ⟨u₂, hget₂, hu₂, h₂⟩ := rawbyte_holds h₁
  obtain ⟨u₃, hget₃, hu₃, h₃⟩ := rawbyte_holds h₂
  obtain ⟨u₄, hget₄, hu₄, -⟩ := rawbyte_holds h₃
  refine ⟨u₄, ?_, ((hu₁.trans hu₂).trans hu₃).trans hu₄⟩
  simp only [getUInt, hget₁, hget₂, hget₃, hget₄, signExtend_and]
  exact congrArg _ (ofBe32_be32 x)

/-- An `int` is read as an `unsigned int`. -/
theorem getInt_eq (u : unmarshall) : getInt u = ((getUInt u).1, (getUInt u).2.toInt32) := rfl

theorem getInt_gets : Gets getInt fun x => be32 x.toUInt32 := by
  intro u x h
  obtain ⟨u', hget, hu'⟩ := getUInt_gets u x.toUInt32 h
  refine ⟨u', ?_, hu'⟩
  rw [getInt_eq, hget]
  rfl

theorem getULongLong_gets : Gets getULongLong encULongLong :=
  getUInt_gets.seq getUInt_gets (fun x : UInt64 => (x >>> 32).toUInt32) UInt64.toUInt32
    ofWords_words

theorem getString_gets (s : List UInt8) : Gets (getString · s) encString := by
  intro u x h
  obtain ⟨u', hget, hu'⟩ := getUInt_gets u _ h.left
  have h' := h.right hu'
  obtain ⟨u'', hget', hu''⟩ := rawbytes_holds h' s
  refine ⟨u'', ?_, ?_⟩
  · simp only [getString, hget, h'.ok, if_true, hget']
  · rw [encString, List.length_append]
    exact hu'.trans hu''

/-! ## Headers -/

def encReqHeader (h : req_header) : List UInt8 :=
  be32 h.xid.toUInt32 ++ (be32 h.proc.toUInt32 ++ (be32 h.clt_nonce.toInt32.toUInt32
    ++ (be32 h.srv_nonce.toInt32.toUInt32 ++ be32 h.xid_rep.toUInt32)))

def encReplyHeader (h : reply_header) : List UInt8 := be32 h.xid.toUInt32 ++ be32 h.ret.toUInt32

/-- The header is written in place; the head is where it was. -/
structure Packed (m : marshall) (bs : List UInt8) (m' : marshall) : Prop where
  buf : m'.buf = write m.buf sizeof_rpc_sz_t bs
  ind : m'.ind = m.ind
  capa : m.capa ≤ m'.capa

/-- A header is written into the space reserved at the front, behind the size field, and the
index is put back afterwards. -/
theorem pack_packed {α : Type} {put : marshall → α → Option marshall} {enc : α → List UInt8}
    (hput : Puts put enc) {x : α} (hlen : (enc x).length ≤ 20) (hcapa : RPC_HEADER_SZ ≤ m.capa) :
    ∃ m', (do
      let m' ← put { m with ind := sizeof_rpc_sz_t } x
      some { m' with ind := m.ind }) = some m' ∧ Packed m (enc x) m' := by
  have hsz : RPC_HEADER_SZ = 24 := rfl
  have hroom : marshall.Room { m with ind := sizeof_rpc_sz_t } :=
    ⟨Int.le.intro 4 rfl, by show (4 : ℤ) ≤ m.capa; omega, by show 0 < m.capa; omega⟩
  obtain ⟨m', hm', happ⟩ := hput _ x hroom (by show (4 : ℤ) + _ < _; omega)
  refine ⟨{ m' with ind := m.ind }, ?_, happ.buf, rfl, happ.capa⟩
  simp only [hm', Option.bind_eq_bind, Option.bind_some]

theorem pack_req_header_packed (h : req_header) (hcapa : RPC_HEADER_SZ ≤ m.capa) :
    ∃ m', m.pack_req_header h = some m' ∧ Packed m (encReqHeader h) m' := by
  have hputs := pack_puts.seq (pack_puts.seq (pack_puts.seq (pack_puts.seq pack_puts
    (fun h : req_header => h.srv_nonce.toInt32) fun h => h.xid_rep)
    (fun h : req_header => h.clt_nonce.toInt32) fun h => h) (fun h : req_header => h.proc)
    fun h => h) (fun h : req_header => h.xid) fun h => h
  obtain ⟨m', hm', hpacked⟩ := pack_packed hputs (x := h) (Nat.le_refl 20) hcapa
  refine ⟨m', ?_, hpacked⟩
  simpa only [marshall.pack_req_header, bind_assoc] using hm'

theorem pack_reply_header_packed (h : reply_header) (hcapa : RPC_HEADER_SZ ≤ m.capa) :
    ∃ m', m.pack_reply_header h = some m' ∧ Packed m (encReplyHeader h) m' := by
  have hputs := pack_puts.seq pack_puts (fun h : reply_header => h.xid) fun h => h.ret
  obtain ⟨m', hm', hpacked⟩ := pack_packed hputs (x := h) (by show 8 ≤ 20; omega) hcapa
  refine ⟨m', ?_, hpacked⟩
  simpa only [marshall.pack_reply_header, bind_assoc] using hm'

theorem unpack_req_header_holds {h : req_header}
    (hu : Holds { u with ind := sizeof_rpc_sz_t } (encReqHeader h)) :
    ∃ u', u.unpack_req_header = (u', h)
      ∧ u'.buf = u.buf ∧ u'.sz = u.sz ∧ u'.ok = u.ok ∧ u'.ind = RPC_HEADER_SZ := by
  obtain ⟨u₁, hget₁, hu₁⟩ := getInt_gets _ h.xid hu.left
  have hu := hu.right hu₁
  obtain ⟨u₂, hget₂, hu₂⟩ := getInt_gets _ h.proc hu.left
  have hu := hu.right hu₂
  obtain ⟨u₃, hget₃, hu₃⟩ := getInt_gets _ h.clt_nonce.toInt32 hu.left
  have hu := hu.right hu₃
  obtain ⟨u₄, hget₄, hu₄⟩ := getInt_gets _ h.srv_nonce.toInt32 hu.left
  have hu := hu.right hu₄
  obtain ⟨u₅, hget₅, hu₅⟩ := getInt_gets _ h.xid_rep hu
  have hall := (((hu₁.trans hu₂).trans hu₃).trans hu₄).trans hu₅
  refine ⟨{ u₅ with ind := RPC_HEADER_SZ }, ?_, hall.buf, hall.sz, hall.ok, rfl⟩
  simp only [unmarshall.unpack_req_header, unmarshall.unpack, hget₁, hget₂, hget₃, hget₄, hget₅]
  rfl

theorem unpack_reply_header_holds {h : reply_header}
    (hu : Holds { u with ind := sizeof_rpc_sz_t } (encReplyHeader h)) :
    ∃ u', u.unpack_reply_header = (u', h)
      ∧ u'.buf = u.buf ∧ u'.sz = u.sz ∧ u'.ok = u.ok ∧ u'.ind = RPC_HEADER_SZ := by
  obtain ⟨u₁, hget₁, hu₁⟩ := getInt_gets _ h.xid hu.left
  obtain ⟨u₂, hget₂, hu₂⟩ := getInt_gets _ h.ret (hu.right hu₁)
  have hall := hu₁.trans hu₂
  refine ⟨{ u₂ with ind := RPC_HEADER_SZ }, ?_, hall.buf, hall.sz, hall.ok, rfl⟩
  simp only [unmarshall.unpack_reply_header, unmarshall.unpack, hget₁, hget₂]

end Yfs.Marshall
